import Mathlib.Data.List.Induction
import Mathlib.Data.List.Infix
import Vimgdb.Common.Dynarray
import Vimgdb.Lib.Buffer

/-!
# The memory of output buffers

`dynarray` with the memory it allocates, under the model that knows the text alone.

* `Buffer`, `vsnprintfTo`, `addLoop`, `add`, `clear`, `data`: the class.
* `Holds`: the text is in memory, with a 0 behind it.
* `addLoop_eq`: the loop ends with the text in memory, or the buffer is lost.
* `refines_add`: it is the text of the other model.
* `run_holds_iff`: behind every sequence of calls the text is that since the last `clear`, unless there
  has been no call.
-/

namespace Vimgdb.DynarrayBuffer

open Buffers Printf

/-- `s`, `idx` and `len`. -/
structure Buffer where
  mem : CStr
  idx : BitVec 32
  len : BitVec 32

/-! ## The functions -/

/-- What new memory contains, by index. -/
def fresh (junk : Nat → Char) (i n : Nat) : CStr := (List.range' i n).map junk

/-- `dynarray` -/
def init (junk : Nat → Char) : Buffer := ⟨fresh junk 0 1024, 0, 1024⟩

/-- `realloc`: what fits stays. -/
def realloc (junk : Nat → Char) (mem : CStr) (n : Nat) : CStr :=
  mem.take n ++ fresh junk mem.length (n - mem.length)

/-- `vsnprintf` with a text that has been made: at most `size` characters are stored, with the 0. -/
def vsnprintfTo (mem : CStr) (i size : Nat) (t : CStr) : Option CStr :=
  if size = 0 then some mem else store mem i (t.take (size - 1) ++ ['\x00'])

/-- What `vsnprintf` returns: the length, or -1 if it is no `int`. -/
def returned (t : CStr) : BitVec 32 := if t.length < 2 ^ 31 then BitVec.ofNat 32 t.length else -1

/-- The loop of `add`, for a text that has been made; it ends before `fuel` is used up.  A size of 0
frees the memory, so that the buffer is lost. -/
def addLoop (junk : Nat → Char) (t : CStr) : Nat → Buffer → Option Buffer
  | 0, _ => none
  | fuel + 1, b => do
      let mem ← vsnprintfTo b.mem b.idx.toNat (b.len - b.idx).toNat t
      if returned t < b.len - b.idx then some { b with mem, idx := b.idx + returned t }
      else if b.len * 2 = 0 then none
      else addLoop junk t fuel { b with mem := realloc junk mem (b.len * 2).toNat, len := b.len * 2 }

/-- `add`, for a text that has been made; 32 doublings lose the buffer. -/
def addText (junk : Nat → Char) (t : CStr) (b : Buffer) : Option Buffer := addLoop junk t 33 b

/-- `add` -/
def add (junk : Nat → Char) (fmt : CStr) (args : List Arg) (b : Buffer) : Option Buffer :=
  (vsnprintf fmt args).bind fun t => addText junk t b

/-- `clear` -/
def clear (b : Buffer) : Option Buffer :=
  (write b.mem 0 '\x00').map fun mem => { b with mem, idx := 0 }

/-- `data`: the string in memory. -/
def Buffer.data (b : Buffer) : Option CStr := Buffers.text '\x00' b.mem

/-! ## The text -/

/-- The size is a power of 2, and it is what is allocated. -/
structure Sized (b : Buffer) : Prop where
  length : b.mem.length = b.len.toNat
  pow : ∃ k, k < 32 ∧ b.len.toNat = 2 ^ k

/-- The text is in memory, with a 0 behind it. -/
structure Holds (b : Buffer) (s : CStr) : Prop extends Sized b where
  idx : b.idx.toNat = s.length
  mem : ∃ rest, b.mem = s ++ '\x00' :: rest

variable {junk : Nat → Char} {b : Buffer} {s t : CStr}

/-- The index is in front of the size. -/
theorem Holds.idx_lt (h : Holds b s) : b.idx < b.len := by
  obtain ⟨rest, hmem⟩ := h.mem
  have hlength := h.length
  rw [hmem, List.length_append, List.length_cons] at hlength
  rw [BitVec.lt_def, h.idx]
  omega

theorem length_fresh (junk : Nat → Char) (i n : Nat) : (fresh junk i n).length = n := by
  unfold fresh
  rw [List.length_map, List.length_range']

theorem sized_init (junk : Nat → Char) : Sized (init junk) :=
  ⟨length_fresh _ _ _, 10, by decide, rfl⟩

/-- What `vsnprintf` leaves behind a text. -/
theorem vsnprintfTo_append {rest : CStr} (hrest : rest ≠ []) (t : CStr) :
    vsnprintfTo (s ++ rest) s.length rest.length t =
      some (s ++ (t.take (rest.length - 1) ++ ['\x00']) ++
        rest.drop ((t.take (rest.length - 1)).length + 1)) := by
  have hpos : 0 < rest.length := List.length_pos_of_ne_nil hrest
  have hle : (t.take (rest.length - 1)).length ≤ rest.length - 1 := List.length_take_le _ _
  have hold : (rest.take ((t.take (rest.length - 1)).length + 1)).length =
      (t.take (rest.length - 1) ++ ['\x00']).length := by
    rw [List.length_append, List.length_take_of_le (by omega)]
    rfl
  have hstore := @store_append Char s _ (rest.drop ((t.take (rest.length - 1)).length + 1)) _ s.length rfl hold
  rw [List.append_assoc, List.take_append_drop] at hstore
  unfold vsnprintfTo
  rw [if_neg hpos.ne']
  exact hstore

theorem toNat_returned_lt {n : BitVec 32} (hn : n.toNat ≤ 2 ^ 31) :
    returned t < n ↔ t.length < n.toNat := by
  unfold returned
  rw [BitVec.lt_def]
  split
  · next hlt => rw [BitVec.toNat_ofNat, Nat.mod_eq_of_lt (by omega)]
  · next hle =>
    have hminus : (-1 : BitVec 32).toNat = 2 ^ 32 - 1 := rfl
    rw [hminus]
    omega

/-- One round of the loop: the text fits, or as much of it as fits is stored. -/
theorem addLoop_succ {rest : CStr} (hsized : Sized b) (hidx : b.idx.toNat = s.length)
    (hmem : b.mem = s ++ rest) (hrest : rest ≠ []) (fuel : Nat) :
    addLoop junk t (fuel + 1) b =
      if t.length < rest.length then
        some { b with mem := s ++ t ++ '\x00' :: rest.drop (t.length + 1), idx := b.idx + returned t }
      else if b.len * 2 = 0 then none
      else addLoop junk t fuel { b with
        mem := realloc junk (s ++ (t.take (rest.length - 1) ++ ['\x00'])) (b.len * 2).toNat
        len := b.len * 2 } := by
  obtain ⟨hlength, k, hk, hpow⟩ := hsized
  have hle : 2 ^ k ≤ 2 ^ 31 := Nat.pow_le_pow_right (by decide) (Nat.le_of_lt_succ hk)
  rw [hmem, List.length_append] at hlength
  have hroom : (b.len - b.idx).toNat = rest.length := by
    rw [BitVec.toNat_sub_of_le (by rw [BitVec.le_def]; omega), hidx]
    omega
  have hfits := toNat_returned_lt (t := t) (n := b.len - b.idx) (by omega)
  rw [hroom] at hfits
  have hstored := vsnprintfTo_append (s := s) hrest t
  conv_lhs => unfold addLoop
  rw [hmem, hidx, hroom, hstored, Option.bind_eq_bind, Option.bind_some]
  by_cases hlt : t.length < rest.length
  · have htake : t.take (rest.length - 1) = t := List.take_of_length_le (by omega)
    rw [if_pos (hfits.mpr hlt), if_pos hlt, htake]
    simp only [List.append_assoc, List.singleton_append]
  · have htake : (t.take (rest.length - 1)).length = rest.length - 1 :=
      List.length_take_of_le (by omega)
    have hpos : 0 < rest.length := List.length_pos_of_ne_nil hrest
    rw [if_neg (mt hfits.mp hlt), if_neg hlt, htake, Nat.sub_add_cancel hpos, List.drop_length,
      List.append_nil]

/-- The size is doubled until the text fits, or the buffer is lost: `n` is how often it can be. -/
theorem addLoop_eq {n fuel : Nat} {rest : CStr} (hlength : b.mem.length = b.len.toNat)
    (hn : n ≤ 31) (hlen : b.len.toNat = 2 ^ (31 - n)) (hidx : b.idx.toNat = s.length)
    (hmem : b.mem = s ++ rest) (hrest : rest ≠ []) (hfuel : n < fuel) :
    if s.length + t.length < 2 ^ 31 then ∃ b', addLoop junk t fuel b = some b' ∧ Holds b' (s ++ t)
    else addLoop junk t fuel b = none := by
  induction n using Nat.strongRecOn generalizing fuel b rest with
  | ind n ih =>
      have hsized : Sized b := ⟨hlength, 31 - n, by omega, hlen⟩
      have hlength' := hlength
      rw [hmem, List.length_append, hlen] at hlength'
      have hpos : 0 < rest.length := List.length_pos_of_ne_nil hrest
      obtain ⟨fuel, rfl⟩ := Nat.exists_eq_succ_of_ne_zero (n := fuel) (by omega)
      rw [addLoop_succ hsized hidx hmem hrest]
      have hsmall : 2 ^ (31 - n) ≤ 2 ^ 31 := Nat.pow_le_pow_right (by decide) (Nat.sub_le _ _)
      by_cases hlt : t.length < rest.length
      · -- the text fits
        have hreturned : returned t = BitVec.ofNat 32 t.length := if_pos (by omega)
        rw [if_pos (by omega), if_pos hlt, hreturned]
        refine ⟨_, rfl, ⟨⟨?_, 31 - n, by omega, hlen⟩, ?_, rest.drop (t.length + 1), rfl⟩⟩
        · dsimp only
          rw [List.length_append, List.length_append, List.length_cons, List.length_drop, hlen]
          omega
        · dsimp only
          rw [BitVec.toNat_add, hidx, BitVec.toNat_ofNat, List.length_append]
          omega
      · rw [if_neg hlt]
        have hdouble : (b.len * 2).toNat = 2 ^ (31 - n) * 2 % 2 ^ 32 := by
          rw [BitVec.toNat_mul, hlen]
          rfl
        cases n with
        | zero =>
            have hzero : b.len * 2 = 0 := BitVec.eq_of_toNat_eq hdouble
            rw [if_pos hzero, if_neg (by omega)]
        | succ n =>
            have hpow : 2 ^ (31 - (n + 1)) * 2 = 2 ^ (31 - n) := by
              rw [← Nat.pow_succ]
              congr 1
              omega
            have hle : 2 ^ (31 - n) ≤ 2 ^ 31 := Nat.pow_le_pow_right (by decide) (Nat.sub_le _ _)
            rw [hpow, Nat.mod_eq_of_lt (by omega)] at hdouble
            have hne : b.len * 2 ≠ 0 := by
              intro hzero
              rw [hzero] at hdouble
              exact absurd hdouble.symm (Nat.two_pow_pos _).ne'
            have htake : (t.take (rest.length - 1) ++ ['\x00']).length = rest.length := by
              rw [List.length_append, List.length_take_of_le (by omega)]
              exact Nat.sub_add_cancel hpos
            -- what is in memory stays, and as much memory is added
            have hgrown : realloc junk (s ++ (t.take (rest.length - 1) ++ ['\x00'])) (b.len * 2).toNat =
                s ++ ((t.take (rest.length - 1) ++ ['\x00']) ++
                  fresh junk (s ++ (t.take (rest.length - 1) ++ ['\x00'])).length
                    ((b.len * 2).toNat - (s ++ (t.take (rest.length - 1) ++ ['\x00'])).length)) := by
              unfold realloc
              rw [List.take_of_length_le (by rw [List.length_append, htake, hdouble]; omega),
                List.append_assoc]
            rw [if_neg hne]
            refine ih n (Nat.lt_succ_self n) ?_ (by omega) hdouble hidx hgrown (by simp) (by omega)
            dsimp only
            rw [hgrown, List.length_append, List.length_append, htake, length_fresh, List.length_append,
              htake, hdouble]
            omega

/-- The text is in memory, and there is room behind it. -/
structure Ready (b : Buffer) (s : CStr) : Prop extends Sized b where
  idx : b.idx.toNat = s.length
  mem : ∃ rest, rest ≠ [] ∧ b.mem = s ++ rest

theorem Holds.ready (h : Holds b s) : Ready b s := by
  obtain ⟨rest, hmem⟩ := h.mem
  exact { h with mem := ⟨'\x00' :: rest, List.cons_ne_nil _ _, hmem⟩ }

theorem ready_init (junk : Nat → Char) : Ready (init junk) [] :=
  { sized_init junk with
    idx := rfl
    mem := ⟨fresh junk 0 1024, List.ne_nil_of_length_pos (by rw [length_fresh]; decide), rfl⟩ }

/-- `add` puts the text behind the one in memory, if both fit into 2 ^ 31 characters with their 0. -/
theorem addText_spec (h : Ready b s) (t : CStr) :
    if s.length + t.length < 2 ^ 31 then ∃ b', addText junk t b = some b' ∧ Holds b' (s ++ t)
    else addText junk t b = none := by
  obtain ⟨k, hk, hpow⟩ := h.pow
  obtain ⟨rest, hrest, hmem⟩ := h.mem
  have hlen : b.len.toNat = 2 ^ (31 - (31 - k)) := by
    rw [hpow]
    congr 1
    omega
  exact addLoop_eq h.length (Nat.sub_le _ _) hlen h.idx hmem hrest (by omega)

theorem clear_spec (h : Ready b s) : ∃ b', clear b = some b' ∧ Holds b' [] := by
  obtain ⟨rest, hrest, hmem⟩ := h.mem
  have hpos : b.mem ≠ [] := by
    rw [hmem]
    exact List.append_ne_nil_of_right_ne_nil _ hrest
  cases hcons : b.mem with
  | nil => exact absurd hcons hpos
  | cons c cs =>
      have hwrite : write (c :: cs) 0 '\x00' = some ('\x00' :: cs) := @write_append Char [] cs '\x00' c 0 rfl
      refine ⟨{ b with mem := '\x00' :: cs, idx := 0 }, ?_, ⟨⟨?_, h.pow⟩, rfl, cs, rfl⟩⟩
      · unfold clear
        rw [hcons, hwrite]
        rfl
      · rw [← h.length, hcons]
        rfl

/-- The text of the other model is in memory behind every `add`, and a text that does not fit there does
not fit here. -/
theorem refines_add {M : Type} {d : Dynarray M} (h : Ready b d.data) (shows : Option M) (fmt : CStr)
    (args : List Arg) :
    match d.add shows fmt args with
    | some d' => ∃ b', add junk fmt args b = some b' ∧ Holds b' d'.data
    | none => add junk fmt args b = none := by
  rw [Dynarray.add_eq]
  unfold add
  cases vsnprintf fmt args with
  | none => exact rfl
  | some t =>
      have hspec := @addText_spec junk _ _ h t
      have htext : MarkedText.text (d.pieces ++ [⟨t, shows⟩]) = d.data ++ t := by
        rw [MarkedText.text_append, MarkedText.text_singleton]
        rfl
      rw [Option.bind_some, Option.bind_some]
      unfold Dynarray.extend
      by_cases hfits : (MarkedText.text (d.pieces ++ [⟨t, shows⟩])).length < 2 ^ 31
      · rw [htext, List.length_append] at hfits
        rw [if_pos hfits] at hspec
        obtain ⟨b', hadd, hholds⟩ := hspec
        rw [← htext] at hholds
        rw [dif_pos (by rw [htext, List.length_append]; exact hfits)]
        exact ⟨b', hadd, hholds⟩
      · rw [dif_neg hfits]
        rw [htext, List.length_append] at hfits
        rw [if_neg hfits] at hspec
        exact hspec

/-! ## Runs -/

/-- A call, with the text that `vsnprintf` makes. -/
inductive Call
  | add (t : CStr)
  | clear
  deriving DecidableEq

def Call.step (junk : Nat → Char) (b : Buffer) : Call → Option Buffer
  | add t => addText junk t b
  | clear => DynarrayBuffer.clear b

/-- Calls one after the other, for a new buffer. -/
def run (junk : Nat → Char) (calls : List Call) : Option Buffer :=
  calls.foldlM (fun b c => c.step junk b) (init junk)

/-- The texts since the last `clear`. -/
def texts (calls : List Call) : CStr :=
  calls.foldl (fun s c => match c with | .add t => s ++ t | .clear => []) []

theorem run_concat (junk : Nat → Char) (calls : List Call) (c : Call) :
    run junk (calls ++ [c]) = (run junk calls).bind fun b => c.step junk b := by
  unfold run
  rw [List.foldlM_append]
  simp

/-- Behind some calls, the texts are in memory with a 0 behind them. -/
theorem exists_run {calls : List Call} (hfits : ∀ cs ∈ calls.inits, (texts cs).length < 2 ^ 31) :
    ∃ b, run junk calls = some b ∧ Ready b (texts calls) ∧ (calls ≠ [] → Holds b (texts calls)) := by
  induction calls using List.reverseRecOn with
  | nil => exact ⟨init junk, rfl, ready_init junk, fun h => absurd rfl h⟩
  | append_singleton calls c ih =>
      have hinit : ∀ cs ∈ calls.inits, (texts cs).length < 2 ^ 31 := fun cs hcs =>
        hfits cs ((List.mem_inits _ _).mpr (((List.mem_inits _ _).mp hcs).trans (List.prefix_append _ _)))
      obtain ⟨b, hrun, hready, -⟩ := ih hinit
      have hstep : ∃ b', c.step junk b = some b' ∧ Holds b' (texts (calls ++ [c])) := by
        have htexts := @List.foldl_append _ _ (fun s c => match c with | .add t => s ++ t | .clear => [])
          ([] : CStr) calls [c]
        have hall := hfits (calls ++ [c]) ((List.mem_inits _ _).mpr (List.prefix_refl _))
        unfold texts at hall ⊢
        rw [htexts] at hall ⊢
        cases c with
        | clear => exact clear_spec hready
        | add t =>
            have hspec := @addText_spec junk _ _ hready t
            rw [if_pos (by rw [← List.length_append]; exact hall)] at hspec
            exact hspec
      obtain ⟨b', hstep, hholds⟩ := hstep
      refine ⟨b', ?_, hholds.ready, fun _ => hholds⟩
      rw [run_concat, hrun, Option.bind_some, hstep]

/-- Behind every sequence of calls whose texts stay below 2 ^ 31 characters, all calls have returned, the
index is in front of the size and the texts since the last `clear` are in memory, if and only if there has
been a call, or the memory begins with a 0 by chance. -/
theorem run_holds_iff (junk : Nat → Char) {calls : List Call}
    (hfits : ∀ cs ∈ calls.inits, (texts cs).length < 2 ^ 31) :
    (∃ b, run junk calls = some b ∧ b.idx < b.len ∧ b.idx.toNat = (texts calls).length ∧
      (texts calls ++ ['\x00']) <+: b.mem ∧ b.data = some (scanned (texts calls))) ↔
      calls ≠ [] ∨ junk 0 = '\x00' := by
  constructor
  · rintro ⟨b, hrun, -, -, hprefix, -⟩
    cases calls with
    | cons c calls => exact Or.inl (List.cons_ne_nil _ _)
    | nil =>
        cases hrun
        have hfresh : (init junk).mem = junk 0 :: fresh junk 1 1023 := rfl
        rw [hfresh] at hprefix
        exact Or.inr (List.cons_prefix_cons.mp hprefix).1.symm
  · intro hcall
    obtain ⟨b, hrun, hready, hholds⟩ := @exists_run junk _ hfits
    have hb : Holds b (texts calls) := by
      by_cases hnil : calls = []
      · obtain rfl := hnil
        cases hrun
        have hzero : junk 0 = '\x00' := hcall.resolve_left fun h => h rfl
        exact { hready with mem := ⟨fresh junk 1 1023, by rw [← hzero]; rfl⟩ }
      · exact hholds hnil
    obtain ⟨rest, hmem⟩ := hb.mem
    refine ⟨b, hrun, hb.idx_lt, hb.idx, ⟨rest, ?_⟩, ?_⟩
    · rw [hmem, List.append_assoc]
      rfl
    · unfold Buffer.data
      rw [hmem]
      exact text_append

/-- A text that is cleared, and one behind it. -/
theorem cleared_text_shown : ∃ b, run (fun _ => 'x') [.add "ab".toList, .clear, .add "c".toList] = some b ∧
    b.idx < b.len ∧ b.idx.toNat = "c".toList.length ∧ "c\x00".toList <+: b.mem ∧
      b.data = some "c".toList :=
  (run_holds_iff (fun _ => 'x') (by decide)).mpr (Or.inl (by decide))

/-- The memory of a new buffer is as `malloc` returns it. -/
theorem new_buffer_unterminated : ¬ ∃ b, run (fun _ => 'x') [] = some b ∧ b.idx < b.len ∧
    b.idx.toNat = (texts []).length ∧ (texts [] ++ ['\x00']) <+: b.mem ∧
      b.data = some (scanned (texts [])) := by
  rintro ⟨b, hrun, -, -, hprefix, -⟩
  cases hrun
  have hfresh : (init fun _ => 'x').mem = 'x' :: fresh (fun _ => 'x') 1 1023 := rfl
  rw [hfresh] at hprefix
  exact absurd (List.cons_prefix_cons.mp hprefix).1 (by decide)

end Vimgdb.DynarrayBuffer
