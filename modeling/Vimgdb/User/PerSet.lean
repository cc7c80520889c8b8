import Vimgdb.Common.Strswap
import Vimgdb.Gdb.MemoryWrite
import Vimgdb.User.PerTypes

/-!
# Setting a register

`Per set` writes a value to a register, and the peripheral window shows the memory of its range.  Both
swap the bytes of a register that is little-endian.

* `Target`: the memory, as gdb reads and writes it.
* `swapAt`: the swap in a buffer.
* `perSet`, `shownValue`: what is written for a value, and what is shown.
* `Sends`, `Shows`: the bytes of the value are sent, and its digits are shown.
* `meets_iff`: the registers and values for which that is so.
-/

namespace Vimgdb.Per

open Strswap MemorySet

/-! ## The target -/

/-- The memory of the target, and what gdb does with it. -/
structure Target (M : Type) where
  /-- What is in memory. -/
  byte : M → BitVec 64 → UInt8
  /-- `data-read-memory-bytes`: the contents. -/
  readMemory : M → BitVec 64 → Nat → Option CStr
  /-- `data-write-memory-bytes`, with a count or without. -/
  writeMemory : M → BitVec 64 → CStr → Option (BitVec 32) → Option M

/-- What gdb does with memory that is there: it reads it as hexadecimal text, and it writes bytes from
such text as often as the count says, here once. -/
structure Target.Lawful {M : Type} (T : Target M) : Prop where
  read : ∀ m addr n, T.readMemory m addr n =
    some (hexText ((List.range n).map fun i => T.byte m (addr + BitVec.ofNat 64 i)))
  write : ∀ m addr text bs, hexBytes text = some bs → bs ≠ [] → bs.length < 2 ^ 32 →
    ∃ m', T.writeMemory m addr text (some (BitVec.ofNat 32 bs.length)) = some m' ∧
      ∀ x, T.byte m' x = (bs[(x - addr).toNat]?).getD (T.byte m x)

/-- `cmd_per_exec` for `set`: the digits that are sent for the value as it is typed, if it is not rejected;
`junk` is what new memory contains. -/
def perContents (junk : Char) (reg : Register) (endian : Endian) (value : CStr) : Option CStr := do
  let value ← if byteSwapCond reg.opt endian then strswap2 junk value (BitVec.ofNat 32 value.length)
    else some value
  (← digitsOf junk value)

/-- The bytes that are sent for a register, in the order of memory. -/
def sent (reg : Register) (endian : Endian) (bs : List UInt8) : List UInt8 :=
  if byteSwapCond reg.opt endian then bs.reverse else bs

/-- The bytes sent to gdb, reversed for a little-endian register, are the bytes of the value. -/
def Sends (junk : Char) (reg : Register) (endian : Endian) (value : CStr) (bs : List UInt8) : Prop :=
  ((perContents junk reg endian value).bind hexBytes).map (sent reg endian) = some bs

section
variable {M : Type} (T : Target M)

/-- `cmd_per_exec` for `set`. -/
def perSet (junk : Char) (m : M) (base : BitVec 64) (reg : Register) (endian : Endian)
    (value : CStr) : Option M := do
  let text ← perContents junk reg endian value
  T.writeMemory m (base + reg.offset.zeroExtend 64) text
    (if reg.nbytes = 0 then none else some reg.nbytes)

/-- `%.*s`: a negative precision is as none, and a text that is longer than an `int` is an error. -/
def printed (precision : BitVec 32) (s : CStr) : Option CStr :=
  let s := if precision.toInt < 0 then s else s.take precision.toInt.toNat
  if s.length < 2 ^ 31 then some s else none

/-- `strswap2` for a part of a buffer; what its array contains before does not matter (`strswap2_eq`). -/
def swapAt (s : CStr) (start : Nat) (len : BitVec 32) : Option CStr :=
  if start + len.toNat ≤ s.length then
    (strswap2 '\x00' ((s.drop start).take len.toNat) len).map fun t =>
      s.take start ++ t ++ s.drop (start + len.toNat)
  else none

/-- The value of a register in `cmd_per_update`, with the memory of its range read again. -/
def shownValue (m : M) (base : BitVec 64) (size : BitVec 32) (reg : Register) (endian : Endian) :
    Option CStr := do
  let content ← T.readMemory m base size.toNat
  let start := (reg.offset * 2).toNat
  if start + (reg.nbytes * 2).toNat ≤ content.length then
    let content ← if byteSwapCond reg.opt endian then swapAt content start (reg.nbytes * 2)
      else some content
    printed (reg.nbytes * 2) (content.drop start)
  else none

/-- Whatever memory is like, the value is written, and its digits are shown. -/
def Shows (junk : Char) (base : BitVec 64) (size : BitVec 32) (reg : Register) (endian : Endian)
    (value digits : CStr) : Prop :=
  ∀ m, ∃ m', perSet T junk m base reg endian value = some m' ∧
    shownValue T m' base size reg endian = some (digits.map Char.toLower)

end

/-! ## Swapping -/

/-- A text of even length is swapped. -/
theorem strswap2_even (junk : Char) {s : CStr} (heven : s.length % 2 = 0) (hlen : s.length < 2 ^ 32) :
    strswap2 junk s (BitVec.ofNat 32 s.length) = some (reversed s) := by
  have hlength : s.length = (BitVec.ofNat 32 s.length).toNat := by
    rw [BitVec.toNat_ofNat, Nat.mod_eq_of_lt hlen]
  rw [strswap2_eq junk hlength, if_pos heven]

/-- A part of even length is swapped. -/
theorem swapAt_eq {pre body post : CStr} {start : Nat} {len : BitVec 32} (hstart : pre.length = start)
    (hlen : body.length = len.toNat) (heven : body.length % 2 = 0) :
    swapAt (pre ++ body ++ post) start len = some (pre ++ reversed body ++ post) := by
  subst hstart
  have hle : pre.length + len.toNat ≤ (pre ++ body ++ post).length := by
    rw [List.length_append, List.length_append]
    omega
  have hpost : (pre ++ body ++ post).drop (pre.length + len.toNat) = post := by
    rw [← hlen, ← List.length_append, List.drop_left]
  have hbody : ((pre ++ body ++ post).drop pre.length).take len.toNat = body := by
    rw [List.append_assoc, List.drop_left, ← hlen, List.take_left]
  have hpre : (pre ++ body ++ post).take pre.length = pre := by
    rw [List.append_assoc, List.take_left]
  unfold swapAt
  rw [if_pos hle, hbody, hpost, hpre, strswap2_eq _ hlen, if_pos heven, Option.map_some]

/-- The pairs in reverse order are the bytes in reverse order. -/
theorem hexBytes_reversed {s : CStr} {bs : List UInt8} (h : hexBytes s = some bs) :
    hexBytes (reversed s) = some bs.reverse := by
  fun_induction hexBytes s generalizing bs with
  | case1 =>
      cases h
      rfl
  | case2 c => cases h
  | case3 c d s ih =>
      simp only [Option.bind_eq_bind, Option.bind_eq_some_iff] at h
      obtain ⟨hi, hhi, lo, hlo, bs', hbs, heq⟩ := h
      cases heq
      rw [reversed_cons, hexBytes_append (ih hbs), List.reverse_cons, hexBytes, hhi, hlo]
      rfl

/-- Swapping the text of bytes gives the text of the bytes in reverse order. -/
theorem reversed_hexText (bs : List UInt8) : reversed (hexText bs) = hexText bs.reverse := by
  induction bs with
  | nil => rfl
  | cons b bs ih =>
      have hcons : hexText (b :: bs) =
          hexDigit (b.toNat / 16) :: hexDigit (b.toNat % 16) :: hexText bs := rfl
      rw [hcons, reversed_cons, ih, List.reverse_cons, hexText_append]
      rfl

/-! ## Setting and showing -/

variable {M : Type} {T : Target M} {base : BitVec 64} {size : BitVec 32} {reg : Register}
  {endian : Endian} {digits : CStr} {bs : List UInt8} {junk : Char}

/-- The offset of a register can be doubled in 32 bits, and its digits are counted by an `int`. -/
def Register.Small (reg : Register) : Prop := reg.offset.toNat < 2 ^ 31 ∧ reg.nbytes.toNat < 2 ^ 30

/-- Digits are neither quoted nor have they a mark in front of them. -/
theorem digitsOf_bytes (junk : Char) (h : hexBytes digits = some bs) (hbs : bs ≠ []) (rest : CStr) :
    digitsOf junk (digits ++ rest) = some (some (digits ++ rest)) := by
  match digits, h with
  | [], h =>
      cases h
      exact absurd rfl hbs
  | [c], h => cases h
  | c :: d :: s, h =>
      simp only [hexBytes, Option.bind_eq_bind, Option.bind_eq_some_iff] at h
      obtain ⟨hi, hhi, lo, hlo, -⟩ := h
      obtain ⟨-, -, -, hquote, hchr⟩ := toLower_of_digitValue hhi
      obtain ⟨-, -, hx, -⟩ := toLower_of_digitValue hlo
      refine digitsOf_digits (fun hc => hquote (Option.some_inj.mp hc))
        (fun hc => hchr (Option.some_inj.mp hc)) fun t ht => ?_
      obtain ⟨-, ht⟩ := List.cons_eq_cons.mp ht
      exact hx (List.head_eq_of_cons_eq ht)

/-- The value as it is typed: its digits, with a mark or without. -/
def typed (marked : Bool) (digits : CStr) : CStr := (if marked then ['0', 'x'] else []) ++ digits

/-- Without a mark, or without a swap, the text of the bytes is sent. -/
theorem perContents_eq {marked : Bool} (h : hexBytes digits = some bs) (hbs : bs ≠ [])
    (hshort : bs.length < 2 ^ 30) (hswap : ¬ (byteSwapCond reg.opt endian = true ∧ marked = true)) :
    ∃ text, perContents junk reg endian (typed marked digits) = some text ∧
      hexBytes text = some (sent reg endian bs) := by
  have hdigits := fun {s bs} (h : hexBytes s = some bs) (hbs : bs ≠ []) =>
    List.append_nil s ▸ digitsOf_bytes junk h hbs []
  have hlength := length_of_hexBytes h
  unfold perContents sent typed
  by_cases hs : byteSwapCond reg.opt endian = true
  · obtain rfl : marked = false := Bool.eq_false_iff.mpr fun hm => hswap ⟨hs, hm⟩
    have hswapped := hexBytes_reversed h
    refine ⟨reversed digits, ?_, by rw [if_pos hs, hswapped]⟩
    have heven := strswap2_even junk (s := digits) (by omega) (by omega)
    have hset := hdigits hswapped (by simpa using hbs)
    simp only [if_pos hs, Bool.false_eq_true, if_false, List.nil_append, heven, hset,
      Option.bind_eq_bind, Option.bind_some]
  · refine ⟨digits, ?_, by rw [if_neg hs, h]⟩
    have hset : digitsOf junk (typed marked digits) = some (some digits) := by
      cases marked with
      | true => exact digitsOf_marked digits
      | false => exact hdigits h hbs
    unfold typed at hset
    simp only [if_neg hs, hset, Option.bind_eq_bind, Option.bind_some]

/-- The swap takes the mark to the end of the text, where it is not skipped. -/
theorem perContents_marked (h : hexBytes digits = some bs) (hbs : bs ≠ [])
    (hshort : bs.length < 2 ^ 30) (hs : byteSwapCond reg.opt endian = true) :
    perContents junk reg endian (typed true digits) = some (reversed digits ++ ['0', 'x']) := by
  have hlength := length_of_hexBytes h
  have htyped : (typed true digits).length = digits.length + 2 := rfl
  have heven := strswap2_even junk (s := typed true digits) (by omega) (by omega)
  have htext : reversed (typed true digits) = reversed digits ++ ['0', 'x'] := reversed_cons _ _ _
  have hset := digitsOf_bytes junk (hexBytes_reversed h) (by simpa using hbs) ['0', 'x']
  unfold perContents
  simp only [if_pos hs, heven, htext, hset, Option.bind_eq_bind, Option.bind_some]

theorem length_sent : (sent reg endian bs).length = bs.length := by
  unfold sent
  split
  · exact List.length_reverse
  · rfl

/-- The swap for the window undoes the swap for the target. -/
theorem sent_sent : sent reg endian (sent reg endian bs) = bs := by
  unfold sent
  split
  · exact List.reverse_reverse bs
  · rfl

/-- The bytes of the value are sent if and only if a mark is not swapped with the digits. -/
theorem sends_iff (h : hexBytes digits = some bs) (hbs : bs ≠ []) (hshort : bs.length < 2 ^ 30)
    (marked : Bool) : Sends junk reg endian (typed marked digits) bs ↔
      ¬ (byteSwapCond reg.opt endian = true ∧ marked = true) := by
  constructor
  · rintro hsends ⟨hs, rfl⟩
    have hmark : hexBytes ['0', 'x'] = none := by decide
    unfold Sends at hsends
    rw [perContents_marked h hbs hshort hs, Option.bind_some, hexBytes_append (hexBytes_reversed h),
      hmark] at hsends
    cases hsends
  · intro hswap
    obtain ⟨text, htext, hbytes⟩ := perContents_eq h hbs hshort hswap
    unfold Sends
    rw [htext, Option.bind_some, hbytes, Option.map_some, sent_sent]

/-- A value that is sent is written. -/
theorem perSet_eq (hT : T.Lawful) (m : M) (base : BitVec 64) (hn : reg.nbytes ≠ 0)
    (h : hexBytes digits = some bs) (hlen : bs.length = reg.nbytes.toNat)
    (hshort : reg.nbytes.toNat < 2 ^ 30) {marked : Bool}
    (hswap : ¬ (byteSwapCond reg.opt endian = true ∧ marked = true)) :
    ∃ m', perSet T junk m base reg endian (typed marked digits) = some m' ∧
      ∀ x, T.byte m' x =
        ((sent reg endian bs)[(x - (base + reg.offset.zeroExtend 64)).toNat]?).getD (T.byte m x) := by
  have hn' : reg.nbytes.toNat ≠ 0 := fun h0 => hn (BitVec.eq_of_toNat_eq h0)
  have hbs : bs ≠ [] := List.ne_nil_of_length_pos (by omega)
  have hsent := hlen ▸ @length_sent reg endian bs
  obtain ⟨text, htext, hbytes⟩ := perContents_eq h hbs (by omega) hswap
  obtain ⟨m', hwrite, hbyte⟩ := hT.write m (base + reg.offset.zeroExtend 64) text _ hbytes
    (List.ne_nil_of_length_pos (by omega)) (by omega)
  rw [hsent, BitVec.ofNat_toNat, BitVec.setWidth_eq] at hwrite
  refine ⟨m', ?_, hbyte⟩
  unfold perSet
  rw [htext, Option.bind_eq_bind, Option.bind_some, if_neg hn, hwrite]

/-- What is printed is no longer than an `int` counts. -/
theorem length_of_printed {precision : BitVec 32} {s t : CStr} (h : printed precision s = some t) :
    t.length < 2 ^ 31 := by
  unfold printed at h
  dsimp only at h
  generalize (if precision.toInt < 0 then s else s.take precision.toInt.toNat) = u at h
  by_cases hlen : u.length < 2 ^ 31
  · rw [if_pos hlen, Option.some_inj] at h
    rw [← h]
    exact hlen
  · rw [if_neg hlen] at h
    cases h

/-- As many characters are printed as a precision says that is not negative. -/
theorem printed_eq {precision : BitVec 32} {s : CStr} (h : precision.toNat < 2 ^ 31) :
    printed precision s = some (s.take precision.toNat) := by
  have hint : precision.toInt = precision.toNat := BitVec.toInt_eq_toNat_of_lt (by omega)
  have hlen : (s.take precision.toNat).length < 2 ^ 31 :=
    Nat.lt_of_le_of_lt (List.length_take_le _ _) h
  have hnonneg : ¬ ((precision.toNat : Int) < 0) := by omega
  unfold printed
  rw [hint, if_neg hnonneg, Int.toNat_natCast]
  exact if_pos hlen

/-- What is shown is no longer than an `int` counts. -/
theorem length_of_shownValue {m : M} {s : CStr} (h : shownValue T m base size reg endian = some s) :
    s.length < 2 ^ 31 := by
  unfold shownValue at h
  rw [Option.bind_eq_bind, Option.bind_eq_some_iff] at h
  obtain ⟨content, -, h⟩ := h
  dsimp only at h
  split at h
  · split at h
    · obtain ⟨content, -, h⟩ := Option.bind_eq_some_iff.mp h
      exact length_of_printed h
    · exact length_of_printed h
  · cases h

/-- Bytes of memory. -/
def region (T : Target M) (m : M) (addr : BitVec 64) (n : Nat) : List UInt8 :=
  (List.range n).map fun i => T.byte m (addr + BitVec.ofNat 64 i)

/-- Some bytes in the middle of memory. -/
theorem region_slice (m : M) (addr : BitVec 64) {k n len : Nat} (h : k + n ≤ len) :
    ((region T m addr len).drop k).take n = region T m (addr + BitVec.ofNat 64 k) n := by
  unfold region
  apply List.ext_getElem
  · simp only [List.length_take, List.length_drop, List.length_map, List.length_range]
    omega
  · intro i h₁ h₂
    simp only [List.getElem_take, List.getElem_drop, List.getElem_map, List.getElem_range]
    rw [BitVec.add_assoc, ← BitVec.ofNat_add]

/-- What is in front of some bytes in the middle of memory, and what is behind them. -/
theorem region_split (m : M) (addr : BitVec 64) {k n len : Nat} (h : k + n ≤ len) :
    ∃ pre post, pre.length = k ∧
      region T m addr len = pre ++ region T m (addr + BitVec.ofNat 64 k) n ++ post := by
  have hlen : (region T m addr len).length = len := by
    unfold region
    rw [List.length_map, List.length_range]
  refine ⟨(region T m addr len).take k, (region T m addr len).drop (k + n), ?_, ?_⟩
  · rw [List.length_take, hlen]
    omega
  · rw [← region_slice m addr h, List.append_assoc, ← List.drop_drop, List.take_append_drop,
      List.take_append_drop]

/-- Doubling loses the upper bit. -/
theorem toNat_mul_two (x : BitVec 32) : (x * 2).toNat = 2 * (x.toNat % 2 ^ 31) := by
  rw [BitVec.toNat_mul]
  show x.toNat * 2 % 2 ^ 32 = _
  omega

/-- The bytes that are shown are where the offset says without its upper bit. -/
theorem shownValue_eq (hT : T.Lawful) (m : M) (hb : reg.nbytes.toNat < 2 ^ 30) :
    shownValue T m base size reg endian =
      if reg.offset.toNat % 2 ^ 31 + reg.nbytes.toNat ≤ size.toNat then
        some (hexText (sent reg endian
          (region T m (base + BitVec.ofNat 64 (reg.offset.toNat % 2 ^ 31)) reg.nbytes.toNat)))
      else none := by
  have hn : (reg.nbytes * 2).toNat = 2 * reg.nbytes.toNat := by
    rw [toNat_mul_two]
    omega
  unfold shownValue
  rw [hT.read, Option.bind_eq_bind, Option.bind_some, toNat_mul_two, hn]
  dsimp only
  rw [length_hexText, List.length_map, List.length_range]
  generalize reg.offset.toNat % 2 ^ 31 = k
  by_cases hle : k + reg.nbytes.toNat ≤ size.toNat
  · rw [if_pos hle, if_pos (by omega)]
    obtain ⟨pre, post, hpre, hsplit⟩ := @region_split _ T m base _ _ _ hle
    have hlength : (hexText pre).length = 2 * k := by rw [length_hexText, hpre]
    have htext : hexText ((List.range size.toNat).map fun i => T.byte m (base + BitVec.ofNat 64 i)) =
        hexText pre ++ hexText (region T m (base + BitVec.ofNat 64 k) reg.nbytes.toNat) ++
          hexText post := by
      rw [← hexText_append, ← hexText_append, ← hsplit]
      rfl
    generalize hmid : region T m (base + BitVec.ofNat 64 k) reg.nbytes.toNat = mid at htext
    have hlen : (hexText mid).length = (reg.nbytes * 2).toNat := by
      rw [length_hexText, ← hmid, hn, region, List.length_map, List.length_range]
    -- what stands at the place of the register is printed
    have hprint : ∀ body : CStr, body.length = (reg.nbytes * 2).toNat →
        printed (reg.nbytes * 2) ((hexText pre ++ body ++ hexText post).drop (2 * k)) = some body := by
      intro body hbody
      rw [printed_eq (by omega), List.append_assoc, ← hlength, List.drop_left, ← hbody, List.take_left]
    rw [htext]
    unfold sent
    by_cases hs : byteSwapCond reg.opt endian = true
    · have hswap := @swapAt_eq _ _ (hexText post) _ _ hlength hlen (by omega)
      rw [if_pos hs, if_pos hs, hswap, Option.bind_some, reversed_hexText]
      exact hprint _ (by rw [length_hexText, List.length_reverse, ← length_hexText, hlen])
    · rw [if_neg hs, if_neg hs, Option.bind_some]
      exact hprint _ hlen
  · rw [if_neg hle, if_neg (by omega)]

/-- A write leaves its bytes where it was. -/
theorem region_written {m m' : M} {addr : BitVec 64} (hlen : bs.length < 2 ^ 32)
    (h : ∀ x, T.byte m' x = (bs[(x - addr).toNat]?).getD (T.byte m x)) :
    region T m' addr bs.length = bs := by
  unfold region
  apply List.ext_getElem
  · rw [List.length_map, List.length_range]
  · intro i hi h₂
    have hidx : (addr + BitVec.ofNat 64 i - addr).toNat = i := by
      rw [BitVec.add_comm, BitVec.add_sub_cancel, BitVec.toNat_ofNat, Nat.mod_eq_of_lt (by omega)]
    rw [List.getElem_map, List.getElem_range, h, hidx, List.getElem?_eq_getElem h₂]
    rfl

/-- Memory can hold any byte anywhere. -/
theorem Target.Lawful.exists_byte (hT : T.Lawful) (m : M) (addr : BitVec 64) (b : UInt8) :
    ∃ m', T.byte m' addr = b := by
  obtain ⟨m', -, hm⟩ := hT.write m addr (hexText [b]) [b] (hexBytes_hexText [b]) (by simp)
    (by show 1 < 2 ^ 32; decide)
  have hself : (addr - addr).toNat = 0 := by rw [BitVec.sub_self]; rfl
  refine ⟨m', ?_⟩
  rw [hm, hself]
  rfl

/-- A register whose offset can be doubled shows what was written to it. -/
theorem shows_of_small (hT : T.Lawful) (hn : reg.nbytes ≠ 0) (haccepted : reg.inside size = true)
    (h : hexBytes digits = some bs) (hlen : bs.length = reg.nbytes.toNat) {marked : Bool}
    (hswap : ¬ (byteSwapCond reg.opt endian = true ∧ marked = true)) (hsmall : reg.Small) :
    Shows T junk base size reg endian (typed marked digits) digits := by
  obtain ⟨ho, hb⟩ := hsmall
  intro m
  obtain ⟨m', hset, hbyte⟩ := @perSet_eq _ _ reg endian _ _ junk hT m base hn h hlen hb _ hswap
  refine ⟨m', hset, ?_⟩
  -- the sum in the check of the file does not wrap
  have hinside : reg.offset.toNat + reg.nbytes.toNat ≤ size.toNat := by
    unfold Register.inside at haccepted
    rw [Bool.not_eq_true', decide_eq_false_iff_not, BitVec.lt_def, BitVec.toNat_add] at haccepted
    omega
  have hsent := hlen ▸ @length_sent reg endian bs
  have hregion := region_written (by omega) hbyte
  rw [hsent] at hregion
  have haddr : BitVec.ofNat 64 reg.offset.toNat = reg.offset.zeroExtend 64 := by
    apply BitVec.eq_of_toNat_eq
    rw [BitVec.toNat_ofNat]
    simp
  rw [shownValue_eq hT m' hb, Nat.mod_eq_of_lt ho, if_pos hinside, haddr, hregion, sent_sent,
    map_toLower_of_hexBytes h]

/-- Where the bytes are shown is before where they are written. -/
theorem le_sub_of_offset (ho : 2 ^ 31 ≤ reg.offset.toNat) (hb : reg.nbytes.toNat < 2 ^ 30) :
    reg.nbytes.toNat ≤ (base + BitVec.ofNat 64 (reg.offset.toNat % 2 ^ 31) -
      (base + reg.offset.zeroExtend 64)).toNat := by
  have hlt := reg.offset.isLt
  have hsub : base + BitVec.ofNat 64 (reg.offset.toNat % 2 ^ 31) -
      (base + reg.offset.zeroExtend 64) =
      BitVec.ofNat 64 (reg.offset.toNat % 2 ^ 31) - reg.offset.zeroExtend 64 := by
    bv_omega
  rw [hsub, BitVec.toNat_sub, BitVec.toNat_ofNat, BitVec.toNat_setWidth]
  omega

/-- A register whose offset is doubled beyond its width shows other bytes than those written to it. -/
theorem not_shows_of_offset (hT : T.Lawful) (m₀ : M) (hn : reg.nbytes ≠ 0)
    (h : hexBytes digits = some bs) (hlen : bs.length = reg.nbytes.toNat) {marked : Bool}
    (hswap : ¬ (byteSwapCond reg.opt endian = true ∧ marked = true))
    (hb : reg.nbytes.toNat < 2 ^ 30) (ho : 2 ^ 31 ≤ reg.offset.toNat) :
    ¬ Shows T junk base size reg endian (typed marked digits) digits := by
  intro hshows
  have hn' : reg.nbytes.toNat ≠ 0 := fun h0 => hn (BitVec.eq_of_toNat_eq h0)
  have hsent := hlen ▸ @length_sent reg endian bs
  have hfar := @le_sub_of_offset base reg ho hb
  generalize hplace : base + BitVec.ofNat 64 (reg.offset.toNat % 2 ^ 31) = place at hfar
  -- memory where another byte is at the place that is shown
  obtain ⟨b, hdiff⟩ : ∃ b : UInt8, some b ≠ (sent reg endian bs)[0]? := by
    by_cases h0 : (sent reg endian bs)[0]? = some 0
    · exact ⟨1, by rw [h0]; decide⟩
    · exact ⟨0, fun heq => h0 heq.symm⟩
  obtain ⟨m, hm⟩ := hT.exists_byte m₀ place b
  -- it stays there, since the value is written elsewhere
  obtain ⟨m', hm', hvalue⟩ := hshows m
  obtain ⟨m'', hset, hbyte⟩ := @perSet_eq _ _ reg endian _ _ junk hT m base hn h hlen hb _ hswap
  rw [hset, Option.some_inj] at hm'
  subst hm'
  have hfirst : T.byte m'' place = b := by
    rw [hbyte, List.getElem?_eq_none (by omega), Option.getD_none, hm]
  -- but it is shown as if it were the value
  rw [shownValue_eq hT m'' hb, hplace, map_toLower_of_hexBytes h] at hvalue
  split at hvalue
  · rw [Option.some_inj] at hvalue
    have hbytes := congrArg hexBytes hvalue
    rw [hexBytes_hexText, hexBytes_hexText, Option.some_inj] at hbytes
    have hregion : region T m'' place reg.nbytes.toNat = sent reg endian bs := by
      rw [← hbytes, sent_sent]
    apply hdiff
    rw [← hregion, ← hfirst]
    unfold region
    rw [List.getElem?_map, List.getElem?_range (by omega)]
    show some (T.byte m'' place) = some (T.byte m'' (place + 0#64))
    rw [BitVec.add_zero]
  · cases hvalue

/-- A register is shown as long as its digits only if an `int` counts them. -/
theorem nbytes_lt_of_shows {value : CStr} (h : Shows T junk base size reg endian value digits) (m : M)
    (hlen : digits.length = 2 * reg.nbytes.toNat) : reg.nbytes.toNat < 2 ^ 30 := by
  obtain ⟨m', -, hshown⟩ := h m
  have := length_of_shownValue hshown
  rw [List.length_map] at this
  omega

/-- The bytes of a value are sent and its digits are shown if and only if a mark is not swapped with
the digits, and the offset and the digits of the register fit. -/
theorem meets_iff (hT : T.Lawful) [Nonempty M] (hn : reg.nbytes ≠ 0)
    (haccepted : reg.inside size = true) (h : hexBytes digits = some bs)
    (hlen : bs.length = reg.nbytes.toNat) (junk : Char) (marked : Bool) :
    Sends junk reg endian (typed marked digits) bs ∧
        Shows T junk base size reg endian (typed marked digits) digits ↔
      ¬ (byteSwapCond reg.opt endian = true ∧ marked = true) ∧ reg.Small := by
  have hn' : reg.nbytes.toNat ≠ 0 := fun h0 => hn (BitVec.eq_of_toNat_eq h0)
  have hbs : bs ≠ [] := List.ne_nil_of_length_pos (by omega)
  obtain ⟨m⟩ := ‹Nonempty M›
  constructor
  · rintro ⟨hsends, hshows⟩
    have hb := nbytes_lt_of_shows hshows m (hlen ▸ length_of_hexBytes h)
    have hswap := (sends_iff h hbs (by omega) marked).mp hsends
    refine ⟨hswap, ?_, hb⟩
    by_contra ho
    exact not_shows_of_offset hT m hn h hlen hswap hb (by omega) hshows
  · rintro ⟨hswap, hsmall⟩
    exact ⟨(sends_iff h hbs (hlen ▸ hsmall.2) marked).mpr hswap,
      shows_of_small hT hn haccepted h hlen hswap hsmall⟩

/-! ## Examples -/

/-- A target with memory everywhere. -/
def ram : Target (BitVec 64 → UInt8) where
  byte m := m
  readMemory m addr n := some (hexText ((List.range n).map fun i => m (addr + BitVec.ofNat 64 i)))
  writeMemory m addr text cnt :=
    match hexBytes text with
    | none | some [] => none
    | some (b :: bs) =>
        let pattern := b :: bs
        let n := (cnt.map BitVec.toNat).getD pattern.length
        some fun x =>
          let i := (x - addr).toNat
          if i < n then pattern[i % pattern.length]?.getD 0 else m x

theorem ram_lawful : ram.Lawful where
  read _ _ _ := rfl
  write m addr text bs htext hbs hlt := by
    obtain ⟨b, bs, rfl⟩ := List.exists_cons_of_ne_nil hbs
    refine ⟨_, by simp only [ram, htext]; rfl, fun x => ?_⟩
    have hn : (BitVec.ofNat 32 (b :: bs).length).toNat = (b :: bs).length := by
      rw [BitVec.toNat_ofNat, Nat.mod_eq_of_lt hlt]
    simp only [ram, Option.map_some, Option.getD_some, hn]
    split
    · next hi =>
      rw [Nat.mod_eq_of_lt hi, List.getElem?_eq_getElem hi]
      rfl
    · next hi =>
      rw [List.getElem?_eq_none (by omega)]
      rfl

/-- A register of two bytes. -/
def control : Register :=
  { name := some "CTRL".toList, desc := none, offset := 4, nbytes := 2, opt := {}, bits := [] }

/-- Without a mark, the digits of a little-endian register are shown. -/
theorem control_meets :
    Sends '\x00' control .little "1a2B".toList [0x1a, 0x2b] ∧
      Shows ram '\x00' 0x40000000 16 control .little "1a2B".toList "1a2B".toList :=
  (meets_iff ram_lawful (by decide) (by decide) (by decide) (by decide) '\x00' false).mpr
    ⟨by decide, by decide, by decide⟩

/-- With a mark, other text is sent for it. -/
theorem control_marked_not_meets :
    ¬ (Sends '\x00' control .little "0x1a2B".toList [0x1a, 0x2b] ∧
      Shows ram '\x00' 0x40000000 16 control .little "0x1a2B".toList "1a2B".toList) := by
  intro h
  have hsends : ¬ Sends '\x00' control .little "0x1a2B".toList [0x1a, 0x2b] := by
    unfold Sends
    decide
  exact hsends h.1

end Vimgdb.Per
