import Mathlib.Algebra.Ring.Nat
import Vimgdb.Common.Strings
import Vimgdb.Lib.Buffer

/-!
# The send buffer of a socket

`socket::send` collects what it is given in a buffer and hands the buffer over when it ends with a
newline.  Lengths and the index are of 32 bits, the length of what is given is one with a sign.

* `Socket.send`: one call.  An access outside of the buffer fails.
* `Socket.Holds`: the buffer holds a text.
* `Sendable`, `left`, `handedOver`: what pieces make of the text in the buffer.
* `Socket.Holds.sendAll`: pieces that are `Sendable` are sent, and the index stays below the length.
-/

namespace Vimgdb

open Buffers

/-- The memory of the buffer, its length, the index behind what is in it, and what has been handed to
`sendto`. -/
structure Socket where
  sbuf : CStr
  sbufLen : BitVec 32
  sbufIdx : BitVec 32
  sent : List CStr
  deriving DecidableEq

section

-- what allocated memory contains
variable (junk : Char)

/-- The constructor. -/
def Socket.init : Socket := ⟨List.replicate 256 junk, 256, 0, []⟩

/-- The buffer is made longer if it has no room for `size` more characters.  The sum of signed numbers
is undefined where it overflows. -/
def Socket.grow (s : Socket) (size : BitVec 32) : Option Socket :=
  if s.sbufLen ≤ s.sbufIdx + size then
    if (size + 256).slt size then none
    else
      let sbufLen := s.sbufLen + (size + 256)
      some { s with sbuf := realloc junk s.sbuf sbufLen.toNat, sbufLen }
  else some s

/-- `socket::send`.  `memcpy` takes a negative size for one that no buffer has. -/
def Socket.send (s : Socket) (data : CStr) : Option Socket := do
  let size := BitVec.ofNat 32 data.length
  let s ← s.grow junk size
  if size.slt 0 then none
  else
    let sbuf ← store s.sbuf s.sbufIdx.toNat (data.take size.toNat)
    let sbufIdx := s.sbufIdx + size
    let last ← read sbuf (sbufIdx - 1).toNat
    if last = '\n' then
      return { s with sbuf, sbufIdx := 0, sent := s.sent ++ [sbuf.take sbufIdx.toNat] }
    else return { s with sbuf, sbufIdx }

/-- Some calls, one after the other. -/
def Socket.sendAll (s : Socket) (pieces : List CStr) : Option Socket :=
  pieces.foldlM (Socket.send junk) s

end

/-! ## Texts -/

/-- The text in the buffer behind a piece. -/
def behind (text p : CStr) : CStr := if (text ++ p).getLast? = some '\n' then [] else text ++ p

/-- The text in the buffer behind some pieces. -/
def left (text : CStr) (pieces : List CStr) : CStr := pieces.foldl behind text

/-- What is handed over for some pieces. -/
def handedOver (text : CStr) : List CStr → List CStr
  | [] => []
  | p :: ps =>
      (if (text ++ p).getLast? = some '\n' then [text ++ p] else []) ++ handedOver (behind text p) ps

/-- The pieces can be sent: the first one is not empty, and with what is in the buffer none gets so long
that a length overflows. -/
def Sendable (text : CStr) : List CStr → Prop
  | [] => True
  | p :: ps => text ++ p ≠ [] ∧ (text ++ p).length < 2 ^ 31 - 256 ∧ Sendable (behind text p) ps

theorem left_append (text : CStr) (ps qs : List CStr) :
    left text (ps ++ qs) = left (left text ps) qs := List.foldl_append

theorem handedOver_append (text : CStr) (ps qs : List CStr) :
    handedOver text (ps ++ qs) = handedOver text ps ++ handedOver (left text ps) qs := by
  induction ps generalizing text with
  | nil => rfl
  | cons p ps ih =>
      rw [List.cons_append, handedOver, handedOver, ih, List.append_assoc]
      rfl

theorem sendable_append (text : CStr) (ps qs : List CStr) :
    Sendable text (ps ++ qs) ↔ Sendable text ps ∧ Sendable (left text ps) qs := by
  induction ps generalizing text with
  | nil => exact (and_iff_right trivial).symm
  | cons p ps ih =>
      rw [List.cons_append, Sendable, Sendable, ih, and_assoc, and_assoc]
      rfl

/-! ## One call -/

/-- The buffer holds a text. -/
structure Socket.Holds (s : Socket) (text : CStr) : Prop where
  sbuf : ∃ rest, s.sbuf = text ++ rest
  length : s.sbuf.length = s.sbufLen.toNat
  sbufIdx : s.sbufIdx.toNat = text.length
  room : text.length < s.sbufLen.toNat

variable {junk : Char} {s : Socket} {text p : CStr}

theorem Socket.holds_init : (Socket.init junk).Holds [] where
  sbuf := ⟨_, rfl⟩
  length := List.length_replicate
  sbufIdx := rfl
  room := show 0 < (256 : BitVec 32).toNat by decide

/-- The index is below the length of the buffer. -/
theorem Socket.Holds.index_lt (h : s.Holds text) : s.sbufIdx < s.sbufLen := by
  rw [BitVec.lt_def, h.sbufIdx]
  exact h.room

/-- The size of a piece that can be sent. -/
theorem toNat_size (hp : (text ++ p).length < 2 ^ 31 - 256) :
    (BitVec.ofNat 32 p.length).toNat = p.length ∧ (BitVec.ofNat 32 p.length).slt 0 = false ∧
      (BitVec.ofNat 32 p.length + 256).slt (BitVec.ofNat 32 p.length) = false := by
  rw [List.length_append] at hp
  have hsize : (BitVec.ofNat 32 p.length).toNat = p.length := by
    rw [BitVec.toNat_ofNat, Nat.mod_eq_of_lt (by omega)]
  generalize BitVec.ofNat 32 p.length = size at hsize ⊢
  have hsum : (size + 256).toNat = p.length + 256 := by
    rw [BitVec.toNat_add, hsize, show (256 : BitVec 32).toNat = 256 from rfl]
    exact Nat.mod_eq_of_lt (by omega)
  have hint : size.toInt = p.length := by
    rw [BitVec.toInt_eq_toNat_of_lt (by omega), hsize]
  have hint' : (size + 256).toInt = p.length + 256 := by
    rw [BitVec.toInt_eq_toNat_of_lt (by omega), hsum]
    rfl
  refine ⟨hsize, ?_, ?_⟩
  · rw [BitVec.slt, hint, decide_eq_false_iff_not]
    exact Int.not_lt.mpr (Int.natCast_nonneg _)
  · rw [BitVec.slt, hint, hint', decide_eq_false_iff_not]
    omega

/-- There is room for the piece and one more character. -/
theorem Socket.Holds.grow (h : s.Holds text) (hp : (text ++ p).length < 2 ^ 31 - 256) :
    ∃ s', s.grow junk (BitVec.ofNat 32 p.length) = some s' ∧ s'.Holds text ∧ s'.sent = s.sent ∧
      (text ++ p).length < s'.sbufLen.toNat := by
  obtain ⟨hsize, -, hoverflow⟩ := toNat_size hp
  generalize BitVec.ofNat 32 p.length = size at hsize hoverflow ⊢
  rw [List.length_append] at hp ⊢
  have hsum : (s.sbufIdx + size).toNat = text.length + p.length := by
    rw [BitVec.toNat_add, h.sbufIdx, hsize, Nat.mod_eq_of_lt (by omega)]
  unfold Socket.grow
  by_cases hle : s.sbufLen ≤ s.sbufIdx + size
  · rw [if_pos hle, hoverflow, if_neg Bool.false_ne_true]
    rw [BitVec.le_def, hsum] at hle
    have hroom := h.room
    -- the buffer is made longer only when it is not longer than the text
    have hlen : (s.sbufLen + (size + 256)).toNat = s.sbufLen.toNat + (p.length + 256) := by
      have hsize' : (size + 256).toNat = p.length + 256 := by
        rw [BitVec.toNat_add, hsize, show (256 : BitVec 32).toNat = 256 from rfl]
        exact Nat.mod_eq_of_lt (by omega)
      rw [BitVec.toNat_add, hsize', Nat.mod_eq_of_lt (by omega)]
    have hgrown : s.sbuf.length ≤ (s.sbufLen + (size + 256)).toNat := by
      rw [h.length, hlen]
      omega
    refine ⟨_, rfl, ⟨?_, length_realloc _ _ _, h.sbufIdx, ?_⟩, rfl, ?_⟩
    · obtain ⟨rest, hrest⟩ := h.sbuf
      dsimp only
      rw [realloc_append hgrown]
      exact ⟨rest ++ List.replicate _ junk, by rw [hrest, List.append_assoc]⟩
    · dsimp only
      omega
    · dsimp only
      omega
  · rw [if_neg hle]
    rw [BitVec.le_def, hsum] at hle
    exact ⟨s, rfl, h, rfl, by omega⟩

/-- A piece is put behind the text, and the text is handed over when it ends with a newline. -/
theorem Socket.Holds.send (h : s.Holds text) (hne : text ++ p ≠ [])
    (hp : (text ++ p).length < 2 ^ 31 - 256) :
    ∃ s', s.send junk p = some s' ∧ s'.Holds (behind text p) ∧ s'.sent = s.sent ++
      if (text ++ p).getLast? = some '\n' then [text ++ p] else [] := by
  obtain ⟨hsize, hpositive, -⟩ := toNat_size hp
  obtain ⟨t, hgrow, ht, hsent, hroom⟩ := @Socket.Holds.grow junk _ _ _ h hp
  obtain ⟨rest, hrest⟩ := ht.sbuf
  have hlength := ht.length
  rw [hrest, List.length_append] at hlength
  rw [List.length_append] at hp hroom
  have hstore : store t.sbuf t.sbufIdx.toNat p = some (text ++ p ++ rest.drop p.length) := by
    rw [hrest]
    exact store_of_le ht.sbufIdx (by omega)
  have hidx : (t.sbufIdx + BitVec.ofNat 32 p.length).toNat = (text ++ p).length := by
    rw [BitVec.toNat_add, ht.sbufIdx, hsize, List.length_append, Nat.mod_eq_of_lt (by omega)]
  obtain ⟨front, c, hfront⟩ : ∃ front c, text ++ p = front ++ [c] :=
    ⟨_, _, (List.dropLast_concat_getLast hne).symm⟩
  have hlast : (t.sbufIdx + BitVec.ofNat 32 p.length - 1).toNat = front.length := by
    rw [hfront, List.length_append, List.length_singleton] at hidx
    bv_omega
  have hread : read (text ++ p ++ rest.drop p.length) front.length = some c := by
    rw [hfront, List.append_assoc]
    exact read_append rfl
  have htake : p.take p.length = p := List.take_length
  have hfull : (text ++ p ++ rest.drop p.length).length = t.sbufLen.toNat := by
    rw [List.length_append, List.length_append, List.length_drop]
    omega
  unfold Socket.send
  simp only [hgrow, Option.bind_eq_bind, Option.bind_some, hpositive, Bool.false_eq_true, if_false, hsize,
    htake, hstore, hlast, hread]
  unfold behind
  by_cases hc : c = '\n'
  · have hend : (text ++ p).getLast? = some '\n' := by rw [hfront, List.getLast?_concat, hc]
    rw [if_pos hc, if_pos hend, if_pos hend, hidx, List.take_left, ← hsent]
    exact ⟨_, rfl, ⟨⟨_, rfl⟩, hfull, rfl, by dsimp only [List.length_nil]; omega⟩, rfl⟩
  · have hend : (text ++ p).getLast? ≠ some '\n' := by
      rw [hfront, List.getLast?_concat]
      exact fun heq => hc (Option.some.inj heq)
    rw [if_neg hc, if_neg hend, if_neg hend, ← hsent, List.append_nil]
    exact ⟨_, rfl, ⟨⟨_, rfl⟩, hfull, hidx, by rw [List.length_append]; exact hroom⟩, rfl⟩

/-! ## Pieces -/

/-- Pieces that can be sent are sent. -/
theorem Socket.Holds.sendAll {pieces : List CStr} (h : s.Holds text) (hpieces : Sendable text pieces) :
    ∃ s', s.sendAll junk pieces = some s' ∧ s'.Holds (left text pieces) ∧
      s'.sent = s.sent ++ handedOver text pieces := by
  induction pieces generalizing s text with
  | nil => exact ⟨s, rfl, h, by rw [handedOver, List.append_nil]⟩
  | cons p pieces ih =>
      obtain ⟨hne, hlen, hrest⟩ := hpieces
      obtain ⟨s₁, hsend, hs₁, hsent₁⟩ := @Socket.Holds.send junk _ _ _ h hne hlen
      obtain ⟨s', hall, hs', hsent⟩ := ih hs₁ hrest
      refine ⟨s', ?_, hs', ?_⟩
      · unfold Socket.sendAll at hall ⊢
        rw [List.foldlM_cons, hsend]
        exact hall
      · rw [hsent, hsent₁, handedOver, List.append_assoc]

/-- Pieces without a newline, of which the first is not empty unless there is something already. -/
theorem sendable_keep {pieces : List CStr} (hfirst : text ≠ [] ∨ pieces.head? ≠ some [])
    (htext : '\n' ∉ text) (hpieces : ∀ p ∈ pieces, '\n' ∉ p)
    (hlen : (text ++ pieces.flatten).length < 2 ^ 31 - 256) :
    Sendable text pieces ∧ left text pieces = text ++ pieces.flatten ∧ handedOver text pieces = [] := by
  induction pieces generalizing text with
  | nil => exact ⟨trivial, (List.append_nil _).symm, rfl⟩
  | cons p pieces ih =>
      rw [List.forall_mem_cons] at hpieces
      rw [List.flatten_cons, ← List.append_assoc] at hlen ⊢
      have hne : text ++ p ≠ [] := by
        intro hnil
        obtain ⟨htext, hp⟩ := List.append_eq_nil_iff.mp hnil
        rcases hfirst with hf | hf
        · exact hf htext
        · exact hf (congrArg some hp)
      have hnl : '\n' ∉ text ++ p := by
        rw [List.mem_append, not_or]
        exact ⟨htext, hpieces.1⟩
      have hlast : (text ++ p).getLast? ≠ some '\n' := fun hl => hnl (List.mem_of_getLast? hl)
      have hbehind : behind text p = text ++ p := if_neg hlast
      obtain ⟨hsendable, hleft, hover⟩ := ih (Or.inl hne) hnl hpieces.2 hlen
      refine ⟨⟨hne, ?_, by rwa [hbehind]⟩, ?_, ?_⟩
      · rw [@List.length_append _ (text ++ p)] at hlen
        exact Nat.lt_of_le_of_lt (Nat.le_add_right _ _) hlen
      · rw [← hleft, ← hbehind]
        rfl
      · rw [handedOver, if_neg hlast, hbehind, hover]
        rfl

/-- The pieces of a line are handed over as one message. -/
theorem sendable_line {pieces : List CStr} (hfirst : pieces.head? ≠ some [])
    (hpieces : ∀ p ∈ pieces, '\n' ∉ p)
    (hlen : (pieces.flatten ++ ['\n']).length < 2 ^ 31 - 256) :
    Sendable [] (pieces ++ [['\n']]) ∧ left [] (pieces ++ [['\n']]) = [] ∧
      handedOver [] (pieces ++ [['\n']]) = [pieces.flatten ++ ['\n']] := by
  have hkeep : ([] ++ pieces.flatten).length < 2 ^ 31 - 256 := by
    rw [List.length_append] at hlen
    rw [List.nil_append]
    omega
  obtain ⟨hsendable, hleft, hover⟩ := sendable_keep (Or.inr hfirst) List.not_mem_nil hpieces hkeep
  rw [List.nil_append] at hleft
  have hlast : (pieces.flatten ++ ['\n']).getLast? = some '\n' := List.getLast?_concat
  rw [sendable_append, left_append, handedOver_append, hleft, hover]
  refine ⟨⟨hsendable, by simp, hlen, trivial⟩, ?_, ?_⟩
  · show behind _ _ = _
    exact if_pos hlast
  · rw [handedOver, if_pos hlast]
    rfl

end Vimgdb
