import Vimgdb.User.PerRows
import Mathlib.Data.Nat.Digits.Defs

/-!
# The values of bits

The value of some bits goes through `strtoll`, a mask of 32 bits and two shifts.

* `getLsbD_mask`: a mask has its bits set, as far as there are 32.
* `registerNumber`: the number that the bytes of a register stand for, in its own order.
* `toNat_bitVal`: what comes of the mask and the shifts.
* `Reached`: the condition on the bits and on the number of the register.
* `bits_shown_iff`: the value that is shown is that of the bits if and only if the condition holds.
-/

namespace Vimgdb.Per.View

open Printf Programs
open Gdb (MemoryObject)

variable {sh : Shifts} {bits : Bits} {j : Nat}

/-! ## Masks -/

theorem getLsbD_mask (sh : Shifts) (nbits : BitVec 32) (hj : j < 32) :
    (sh.mask nbits).getLsbD j = decide (j < nbits.toNat) := by
  have hfold : ∀ n, ((List.range n).foldl
      (fun mask i => mask ||| sh.shl 1 (BitVec.ofNat 32 i)) 0).getLsbD j = decide (j < n) := by
    intro n
    induction n with
    | zero => exact BitVec.getLsbD_zero
    | succ n ih =>
        rw [List.range_succ, List.foldl_append, List.foldl_cons, List.foldl_nil,
          BitVec.getLsbD_or, ih]
        rcases Nat.lt_or_ge n 32 with hn | hn
        · have hshift : sh.shl 1 (BitVec.ofNat 32 n) = BitVec.twoPow 32 n := by
            have hmod : (BitVec.ofNat 32 n).toNat = n := by
              rw [BitVec.toNat_ofNat, Nat.mod_eq_of_lt (by omega)]
            have hlt : BitVec.ofNat 32 n < 32 := by
              rw [BitVec.lt_def, hmod]
              exact hn
            unfold Shifts.shl
            rw [if_pos hlt, hmod, BitVec.twoPow_eq]
            rfl
          rw [hshift, BitVec.getLsbD_twoPow, decide_eq_true hn, Bool.true_and, ← Bool.decide_or,
            decide_eq_decide]
          omega
        · -- the mask has all its bits
          rw [decide_eq_true (by omega), decide_eq_true (by omega), Bool.true_or]
  exact hfold nbits.toNat

/-- A bit of what comes of the mask and the shifts. -/
theorem getLsbD_bitVal (sh : Shifts) (regVal : BitVec 64) (j : Nat) (hidx : bits.idx.toNat < 64) :
    (sh.bitVal regVal bits).getLsbD j = (regVal.getLsbD (bits.idx.toNat + j) &&
      decide (bits.idx.toNat + j < 32) && decide (j < bits.nbits.toNat)) := by
  have hlt : bits.idx < 64 := hidx
  unfold Shifts.bitVal Shifts.shr
  rw [if_pos hlt, BitVec.getLsbD_ushiftRight, BitVec.getLsbD_and, BitVec.getLsbD_setWidth]
  rcases Nat.lt_or_ge (bits.idx.toNat + j) 32 with hj | hj
  · have hsmall : bits.idx < 32 := BitVec.lt_def.mpr (show bits.idx.toNat < 32 by omega)
    unfold Shifts.shl
    rw [if_pos hsmall, BitVec.getLsbD_shiftLeft, Nat.add_sub_cancel_left,
      getLsbD_mask sh bits.nbits (by omega)]
    simp [hj, show bits.idx.toNat + j < 64 by omega]
  · rw [BitVec.getLsbD_of_ge _ _ hj]
    simp [hj]

/-- The bits up to the 32nd one, as a number. -/
theorem toNat_bitVal (sh : Shifts) (regVal : BitVec 64) (hidx : bits.idx.toNat < 64) :
    (sh.bitVal regVal bits).toNat =
      regVal.toNat / 2 ^ bits.idx.toNat % 2 ^ min bits.nbits.toNat (32 - bits.idx.toNat) := by
  refine Nat.eq_of_testBit_eq fun j => ?_
  have hbit := getLsbD_bitVal sh regVal j hidx
  unfold BitVec.getLsbD at hbit
  rw [hbit, Nat.testBit_mod_two_pow, Nat.testBit_div_two_pow, Nat.add_comm j]
  by_cases h : bits.idx.toNat + j < 32 ∧ j < bits.nbits.toNat
  · simp only [h, decide_true, Bool.and_true]
    rw [decide_eq_true (by omega), Bool.true_and]
  · rw [decide_eq_false (p := j < min _ _) (by omega), Bool.false_and, Bool.and_assoc,
      ← Bool.decide_and, decide_eq_false h, Bool.and_false]

/-! ## Numbers -/

/-- The value of a byte. -/
def byteValue (c : Char × Char) : Nat :=
  (digitValue 16 c.1).getD 0 * 16 + (digitValue 16 c.2).getD 0

/-- The digits of some bytes are read, the first byte as the most significant one. -/
theorem readDigits_pairText {cells : List (Char × Char)} (h : ∀ c ∈ cells, IsByte c) :
    (∀ d ∈ pairText cells, (digitValue 16 d).isSome) ∧
    readDigits 16 0 (pairText cells) = Nat.ofDigits 256 (cells.map byteValue).reverse := by
  induction cells using List.reverseRecOn with
  | nil => exact ⟨fun d hd => (List.not_mem_nil hd).elim, rfl⟩
  | append_singleton cells c ih =>
      obtain ⟨hdigits, hread⟩ := ih fun c hc => h c (List.mem_append_left _ hc)
      obtain ⟨hfirst, hsecond⟩ := h c (List.mem_append_right _ List.mem_cons_self)
      obtain ⟨d, hd⟩ := Option.isSome_iff_exists.mp hfirst
      obtain ⟨e, he⟩ := Option.isSome_iff_exists.mp hsecond
      have hpair : pairText [c] = [c.1, c.2] := rfl
      rw [pairText_append, hpair]
      constructor
      · intro d hd
        rcases List.mem_append.mp hd with hd | hd
        · exact hdigits d hd
        · simp only [List.mem_cons, List.not_mem_nil, or_false] at hd
          rcases hd with rfl | rfl
          · exact hfirst
          · exact hsecond
      · rw [readDigits_append hdigits, hread, List.map_append, List.reverse_append, List.map_cons,
          List.map_nil, List.reverse_singleton, List.singleton_append, Nat.ofDigits_cons]
        unfold byteValue
        simp only [readDigits, hd, he, Option.getD_some]
        omega

/-- The number that the bytes of a register stand for: the bytes are in the order of memory, and the
first one is the least significant one of a little-endian register. -/
def registerNumber (endian : Endian) (reg : Register) (cells : List (Char × Char)) : Nat :=
  Nat.ofDigits 256 (if byteSwapCond reg.opt endian then (Cells reg cells).map byteValue
    else ((Cells reg cells).map byteValue).reverse)

/-- `strtoll` gives the number of a register, as far as there is one of 63 bits. -/
theorem toNat_strtollHex_ordered {size : BitVec 32} {cells : List (Char × Char)}
    (h : Fetched size cells) (endian : Endian) (reg : Register) :
    (strtollHex (pairText (ordered endian reg cells))).toNat =
      min (registerNumber endian reg cells) (2 ^ 63 - 1) := by
  have hcells : ∀ c ∈ ordered endian reg cells, IsByte c := fun c hc => h.bytes c (mem_of_ordered hc)
  obtain ⟨hdigits, hread⟩ := readDigits_pairText hcells
  rw [toNat_strtollHex hdigits, hread]
  unfold ordered registerNumber
  split
  · rw [List.map_reverse, List.reverse_reverse]
  · rfl

/-! ## The condition -/

/-- The bits begin below the 64th one, the value that they have needs none from the 32nd one on, and
either the number is one of 63 bits or they are all set up to the 32nd one. -/
def Reached (bits : Bits) (number : Nat) : Prop :=
  let value := number / 2 ^ bits.idx.toNat
  bits.idx.toNat < 64 ∧ value % 2 ^ bits.nbits.toNat < 2 ^ (32 - bits.idx.toNat) ∧
    (number < 2 ^ 63 ∨ value % 2 ^ min bits.nbits.toNat (32 - bits.idx.toNat) =
      2 ^ min bits.nbits.toNat (32 - bits.idx.toNat) - 1)

instance (bits : Bits) (number : Nat) : Decidable (Reached bits number) :=
  inferInstanceAs (Decidable (_ ∧ _ ∧ _))

/-- Fewer bits are all bits if and only if the others are 0. -/
theorem mod_min_eq_iff (x n k : Nat) : x % 2 ^ min n k = x % 2 ^ n ↔ x % 2 ^ n < 2 ^ k := by
  have hdvd : 2 ^ min n k ∣ 2 ^ n := Nat.pow_dvd_pow 2 (Nat.min_le_left n k)
  rw [← Nat.mod_mod_of_dvd x hdvd]
  constructor
  · intro h
    calc x % 2 ^ n = x % 2 ^ n % 2 ^ min n k := h.symm
      _ < 2 ^ min n k := Nat.mod_lt _ (Nat.two_pow_pos _)
      _ ≤ 2 ^ k := Nat.pow_le_pow_right (by decide) (Nat.min_le_right n k)
  · intro h
    refine Nat.mod_eq_of_lt ?_
    rcases Nat.le_total n k with hle | hle
    · rw [Nat.min_eq_left hle]
      exact Nat.mod_lt _ (Nat.two_pow_pos n)
    · rw [Nat.min_eq_right hle]
      exact h

/-- Each bit of the largest number is set. -/
theorem largest_div_mod {i m : Nat} (h : i + m ≤ 63) :
    (2 ^ 63 - 1) / 2 ^ i % 2 ^ m = 2 ^ m - 1 := by
  refine Nat.eq_of_testBit_eq fun j => ?_
  rw [Nat.testBit_mod_two_pow, Nat.testBit_div_two_pow, Nat.testBit_two_pow_sub_one,
    Nat.testBit_two_pow_sub_one, ← Bool.decide_and, decide_eq_decide]
  omega

/-- The value is that of the bits if and only if the condition holds. -/
theorem toNat_bitVal_eq_iff {regVal : BitVec 64} {number : Nat}
    (hval : regVal.toNat = min number (2 ^ 63 - 1)) (hidx : bits.idx.toNat < 64) (sh : Shifts) :
    (sh.bitVal regVal bits).toNat = number / 2 ^ bits.idx.toNat % 2 ^ bits.nbits.toNat ↔
      Reached bits number := by
  unfold Reached
  dsimp only
  rw [toNat_bitVal sh regVal hidx, hval, ← mod_min_eq_iff]
  rcases Nat.lt_or_ge number (2 ^ 63) with hsmall | hlarge
  · rw [Nat.min_eq_left (by omega)]
    exact ⟨fun h => ⟨hidx, h, Or.inl hsmall⟩, fun h => h.2.1⟩
  · rw [Nat.min_eq_right (by omega)]
    by_cases hlow : bits.idx.toNat ≤ 32
    · rw [largest_div_mod (by omega)]
      constructor
      · intro h
        have hless : number / 2 ^ bits.idx.toNat % 2 ^ bits.nbits.toNat <
            2 ^ (32 - bits.idx.toNat) := by
          calc _ = 2 ^ min bits.nbits.toNat (32 - bits.idx.toNat) - 1 := h.symm
            _ < 2 ^ min bits.nbits.toNat (32 - bits.idx.toNat) :=
              Nat.sub_lt (Nat.two_pow_pos _) Nat.one_pos
            _ ≤ _ := Nat.pow_le_pow_right (by decide) (Nat.min_le_right _ _)
        have hmod := (mod_min_eq_iff _ _ _).mpr hless
        exact ⟨hidx, hmod, Or.inr (hmod.trans h.symm)⟩
      · rintro ⟨-, hmod, hnumber | hset⟩
        · omega
        · exact hset.symm.trans hmod
    · have hnone : min bits.nbits.toNat (32 - bits.idx.toNat) = 0 := by omega
      rw [hnone, pow_zero, Nat.mod_one, Nat.mod_one]
      exact ⟨fun h => ⟨hidx, h, Or.inr rfl⟩, fun h => h.2.1⟩

/-- What a shift by 64 or more comes to is open. -/
theorem Shifts.bitVal_of_ge {n : BitVec 64} (regVal : BitVec 64) (hidx : 64 ≤ bits.idx.toNat) :
    Shifts.bitVal ⟨fun _ _ => 0, fun _ _ => n⟩ regVal bits = n := by
  have hge : ¬ bits.idx < 64 := Nat.not_lt.mpr hidx
  unfold Shifts.bitVal Shifts.shr
  rw [if_neg hge]

/-! ## The text -/

/-- The digits of a value determine it. -/
theorem bitsText_injective {modified modified' : Bool} {v v' : BitVec 64}
    (h : bitsText bits modified v = bitsText bits modified' v') : v = v' := by
  have hmark : ∀ {w w' : BitVec 64},
      (changed true).1 ++ hexDigits ((bits.nbits + 3) / 4) w ++ (changed true).2 ≠
        (changed false).1 ++ hexDigits ((bits.nbits + 3) / 4) w' ++ (changed false).2 := by
    intro w w' heq
    have hfirst : '\xc2' ∈ hexDigits ((bits.nbits + 3) / 4) w' := by
      have hmem : '\xc2' ∈ (changed false).1 ++ hexDigits ((bits.nbits + 3) / 4) w' ++
          (changed false).2 := heq ▸ List.mem_cons_self
      simpa [changed] using hmem
    have hdigit := isSome_of_mem_hexDigits hfirst
    exact absurd hdigit (by decide)
  unfold bitsText at h
  simp only [List.append_assoc, List.append_cancel_left_eq] at h
  have hdigits : hexDigits ((bits.nbits + 3) / 4) v = hexDigits ((bits.nbits + 3) / 4) v' := by
    cases modified <;> cases modified'
    · simpa [changed] using h
    · exact absurd (by simpa only [List.append_assoc] using h.symm) hmark
    · exact absurd (by simpa only [List.append_assoc] using h) hmark
    · simpa using h
  rw [← BitVec.toNat_inj, ← readDigits_hexDigits, hdigits, readDigits_hexDigits]

/-- A sheet shows some bits with a value. -/
def Sheet.ShowsValue (sheet : Sheet) (p : BitsPtr) (bits : Bits) (value : Nat) : Prop :=
  ∃ piece ∈ sheet.obuf.pieces, piece.shows = some (.bits p) ∧
    ∃ modified v, piece.text = bitsText bits modified v ∧ v.toNat = value

variable {replies : Nat → Option CStr} {s : State} {p : RegisterPtr} {range : Range}
  {mem : MemoryObject} {reg : Register} {i : Nat}

/-- All bits of a register are shown. -/
theorem exists_mem_fieldPieces (hbits : reg.bits[i]? = some bits) (sh : Shifts) (p : RegisterPtr)
    (val : BitVec 64) (values : BitsPtr → BitVec 64) : ∃ piece ∈ (fieldPieces sh p reg val values).pieces,
      piece.shows = some (.bits ⟨p, i⟩) ∧
        ∃ modified, piece.text = bitsText bits modified (sh.bitVal val bits) := by
  have hne : reg.bits ≠ [] := List.ne_nil_of_mem (List.mem_of_getElem? hbits)
  have hloop : ∃ piece ∈ (printAll (bitsPieces sh p val) 0 reg.bits values).pieces,
      piece.shows = some (.bits ⟨p, i⟩) ∧
        ∃ modified, piece.text = bitsText bits modified (sh.bitVal val bits) := by
    refine exists_mem_printAll hbits fun values => ?_
    rw [Nat.zero_add]
    exact ⟨_, List.mem_append_right _ List.mem_cons_self, rfl, _, rfl⟩
  obtain ⟨piece, hpiece, hshown⟩ := hloop
  unfold fieldPieces
  rw [if_neg hne]
  exact ⟨piece, List.mem_append_left _ hpiece, hshown⟩

/-- The bits of a register are shown with what comes of the mask and the shifts, and no other value. -/
theorem ShownAt.showsValue_iff (h : ShownAt s p range mem reg) (hbits : reg.bits[i]? = some bits)
    {sheet : Sheet} (hpieces : sheet.obuf.pieces = (viewPieces sh replies s).pieces) (value : Nat) :
    sheet.ShowsValue ⟨p, i⟩ bits value ↔ (sh.bitVal (strtollHex (pairText (ordered s.props.endian reg
      (pairs ((replies p.sec.range).getD []))))) bits).toNat = value := by
  unfold Sheet.ShowsValue
  rw [hpieces]
  constructor
  · rintro ⟨piece, hpiece, hshows, modified, v, htext, rfl⟩
    obtain ⟨values, hpiece⟩ := h.of_mem hpiece hshows rfl
    unfold registerPieces at hpiece
    rw [if_neg h.nbytes] at hpiece
    rcases List.mem_append.mp hpiece with hpiece | hpiece
    · obtain rfl := List.mem_singleton.mp hpiece
      cases hshows
    · rcases mem_fieldPieces hpiece with hnone | ⟨i', bits', modified', hbits', rfl⟩
      · rw [hnone] at hshows
        cases hshows
      · cases hshows
        obtain rfl := Option.some.inj (hbits'.symm.trans hbits)
        rw [bitsText_injective htext]
  · rintro rfl
    refine h.exists_mem fun values => ?_
    obtain ⟨piece, hpiece, hshows, modified, htext⟩ := exists_mem_fieldPieces hbits sh p
      (strtollHex (pairText (ordered s.props.endian reg (pairs ((replies p.sec.range).getD []))))) values
    unfold registerPieces
    rw [if_neg h.nbytes]
    exact ⟨piece, List.mem_append_right _ hpiece, hshows, modified, _, htext, rfl⟩

/-- The value that is shown of some bits is that of the number of their register if and only if the
bits are reached, whatever shifts by too much come to. -/
theorem bits_shown_iff (hheld : List.Forall₂ Held s.rangeLst s.mems)
    (hread : ∀ i range, s.rangeLst[i]? = some range →
      ∃ content, replies i = some content ∧ IsDump range.size content)
    (hfits : ∀ sh, (MarkedText.text (viewPieces sh replies s).pieces).length < 2 ^ 31)
    (h : ShownAt s p range mem reg) (hbits : reg.bits[i]? = some bits) :
    (∀ sh, ∃ sheet t, exec (updateText sh true replies) s = some (.ok (some sheet), t) ∧
      sheet.ShowsValue ⟨p, i⟩ bits (registerNumber s.props.endian reg
        (pairs ((replies p.sec.range).getD [])) / 2 ^ bits.idx.toNat % 2 ^ bits.nbits.toNat)) ↔
    Reached bits (registerNumber s.props.endian reg (pairs ((replies p.sec.range).getD []))) := by
  obtain ⟨content, hreply, cells, rfl, hcells⟩ := hread p.sec.range range h.inList
  have hpairs : pairs ((replies p.sec.range).getD []) = cells := by
    rw [hreply]
    exact pairs_pairText cells
  have hval := toNat_strtollHex_ordered hcells s.props.endian reg
  have hshows : ∀ sh : Shifts, ∀ value, (∃ sheet t,
      exec (updateText sh true replies) s = some (.ok (some sheet), t) ∧
        sheet.ShowsValue ⟨p, i⟩ bits value) ↔
      (sh.bitVal (strtollHex (pairText (ordered s.props.endian reg cells))) bits).toNat = value := by
    intro sh value
    obtain ⟨sheet, hexec, hpieces⟩ := exists_sheet hheld hread (hfits sh)
    have hiff := h.showsValue_iff hbits hpieces value
    rw [hpairs] at hiff
    rw [← hiff]
    constructor
    · rintro ⟨sheet', t, hexec', hvalue⟩
      rw [hexec] at hexec'
      cases hexec'
      exact hvalue
    · exact fun hvalue => ⟨sheet, _, hexec, hvalue⟩
  rw [hpairs]
  simp only [hshows]
  rcases Nat.lt_or_ge bits.idx.toNat 64 with hidx | hidx
  · constructor
    · exact fun hall => (toNat_bitVal_eq_iff hval hidx ⟨fun _ _ => 0, fun _ _ => 0⟩).mp (hall _)
    · exact fun hreached sh => (toNat_bitVal_eq_iff hval hidx sh).mpr hreached
  · -- 0 and 1 may both come of the shift to the right
    constructor
    · intro hall
      have hzero := hall ⟨fun _ _ => 0, fun _ _ => 0⟩
      have hone := hall ⟨fun _ _ => 0, fun _ _ => 1⟩
      rw [Shifts.bitVal_of_ge _ hidx] at hzero hone
      exact absurd (hzero.trans hone.symm) (by decide)
    · exact fun hreached => absurd hreached.1 (Nat.not_lt.mpr hidx)

theorem printAll_congr {α : Type} {f g : Nat → α → (BitsPtr → BitVec 64) → Print} {k : Nat}
    {xs : List α} (h : ∀ x ∈ xs, ∀ k values, f k x values = g k x values)
    (values : BitsPtr → BitVec 64) : printAll f k xs values = printAll g k xs values := by
  induction xs generalizing k values with
  | nil => rfl
  | cons x xs ih =>
      have hrest : printAll f (k + 1) xs = printAll g (k + 1) xs :=
        funext (ih fun y hy => h y (List.mem_cons_of_mem _ hy))
      rw [printAll, printAll, h x List.mem_cons_self, hrest]

/-- Where all bits begin below the 64th one, it does not matter what shifts by too much come to. -/
theorem viewPieces_congr (sh sh' : Shifts) (h : ∀ range ∈ s.rangeLst, ∀ sec ∈ range.sections,
    ∀ reg ∈ sec.regs, ∀ bits ∈ reg.bits, bits.idx.toNat < 64) :
    viewPieces sh replies s = viewPieces sh' replies s := by
  have hregs : ∀ {endian : Endian} {old cells : List (Char × Char)} (q : SectionPtr) (sec : Section),
      (∀ reg ∈ sec.regs, ∀ bits ∈ reg.bits, bits.idx.toNat < 64) → ∀ values,
      sectionPieces sh endian old cells q sec values = sectionPieces sh' endian old cells q sec values := by
    intro endian old cells q sec hsec values
    unfold sectionPieces
    refine congrArg (fun f => (Print.andThen _ f).andThen _) (funext fun values => ?_)
    refine printAll_congr (fun reg hreg k values => ?_) values
    have hbits : ∀ val i values, printAll (bitsPieces sh ⟨q, k⟩ val) i reg.bits values =
        printAll (bitsPieces sh' ⟨q, k⟩ val) i reg.bits values := by
      intro val i values
      refine printAll_congr (fun bits hmem i values => ?_) values
      have hidx : bits.idx.toNat < 64 := by
        split at hreg
        · exact hsec reg hreg bits hmem
        · cases hreg
      have hval : sh.bitVal val bits = sh'.bitVal val bits := BitVec.eq_of_toNat_eq <| by
        rw [toNat_bitVal sh val hidx, toNat_bitVal sh' val hidx]
      unfold bitsPieces
      rw [hval]
    unfold registerPieces fieldPieces
    simp only [hbits]
  refine printAll_congr (fun r hr i values => ?_) s.values
  exact printAll_congr (fun sec hsec j values =>
    hregs _ sec (h r.1 (List.of_mem_zip hr).1 sec hsec) values) values

/-- A register of 64 bits, of which some are shown. -/
private def wide (bits : Bits) : State :=
  { rangeLst := [{ base := 0x40000000, size := 8, mem := some [], sections := [{
      name := "A".toList, expanded := true, regs := [⟨some "R".toList, none, 0, 8, {}, [bits]⟩] }] }]
    mems := [{ begin := none, content := some "0000000000000000".toList, length := 8 }] }

private def wideReply : Nat → Option CStr := fun _ => some "00000001f0000000".toList

private theorem held_wide (bits : Bits) : List.Forall₂ Held (wide bits).rangeLst (wide bits).mems := by
  refine .cons ⟨?_, _, rfl, @isDump_of_pairs 8 _ (by decide) ⟨by decide, by decide, by decide⟩⟩ .nil
  intro sec hsec reg hreg
  obtain rfl := List.mem_singleton.mp hsec
  obtain rfl := List.mem_singleton.mp hreg
  exact Or.inr (show (0 : BitVec 32).toNat + (8 : BitVec 32).toNat ≤ (8 : BitVec 32).toNat by decide)

private theorem read_wide (bits : Bits) : ∀ i range, (wide bits).rangeLst[i]? = some range →
    ∃ content, wideReply i = some content ∧ IsDump range.size content := by
  intro i range hrange
  obtain rfl := List.mem_singleton.mp (List.mem_of_getElem? hrange)
  exact ⟨_, rfl, @isDump_of_pairs 8 _ (by decide) ⟨by decide, by decide, by decide⟩⟩

private theorem shownAt_wide (bits : Bits) : ∃ range mem, ShownAt (wide bits) ⟨⟨0, 0, 0⟩, 0⟩ range mem
    ⟨some "R".toList, none, 0, 8, {}, [bits]⟩ :=
  ⟨_, _, rfl, rfl, rfl, ⟨_, rfl, rfl, rfl⟩, show (8 : BitVec 32) ≠ 0 by decide⟩

/-- The highest of the first 32 bits are shown with their value. -/
theorem lower_bits_shown : ∃ sheet t,
    exec (updateText ⟨fun _ _ => 0, fun _ _ => 0⟩ true wideReply) (wide ⟨"low".toList, 28, 4⟩) =
      some (.ok (some sheet), t) ∧ sheet.ShowsValue ⟨⟨⟨0, 0, 0⟩, 0⟩, 0⟩ ⟨"low".toList, 28, 4⟩ 15 := by
  obtain ⟨range, mem, hshown⟩ := shownAt_wide ⟨"low".toList, 28, 4⟩
  have hfits : ∀ sh, (MarkedText.text
      (viewPieces sh wideReply (wide ⟨"low".toList, 28, 4⟩)).pieces).length < 2 ^ 31 := by
    intro sh
    rw [viewPieces_congr sh ⟨fun _ _ => 0, fun _ _ => 0⟩ (by decide)]
    decide +kernel
  exact (bits_shown_iff (held_wide _) (read_wide _) hfits hshown List.getElem?_cons_zero).mpr
    (by decide +kernel) _

/-- The bits behind the first 32 ones, which are accepted, are not. -/
theorem upper_bits_not_shown : (∀ range ∈ (wide ⟨"high".toList, 32, 4⟩).rangeLst, range.fits = true) ∧
    ¬ ∀ sh, ∃ sheet t, exec (updateText sh true wideReply) (wide ⟨"high".toList, 32, 4⟩) =
      some (.ok (some sheet), t) ∧ sheet.ShowsValue ⟨⟨⟨0, 0, 0⟩, 0⟩, 0⟩ ⟨"high".toList, 32, 4⟩
        (registerNumber (wide ⟨"high".toList, 32, 4⟩).props.endian
          ⟨some "R".toList, none, 0, 8, {}, [⟨"high".toList, 32, 4⟩]⟩
          (pairs ((wideReply 0).getD [])) / 2 ^ 32 % 2 ^ 4) := by
  refine ⟨by decide, fun hall => ?_⟩
  obtain ⟨sheet, t, hexec, hvalue⟩ := hall ⟨fun _ _ => 0, fun _ _ => 0⟩
  obtain ⟨range, mem, hshown⟩ := shownAt_wide ⟨"high".toList, 32, 4⟩
  obtain ⟨sheet', hsheet, hpieces⟩ := exists_sheet (held_wide ⟨"high".toList, 32, 4⟩) (read_wide _)
    (show (MarkedText.text (viewPieces ⟨fun _ _ => 0, fun _ _ => 0⟩ wideReply _).pieces).length < _ by
      decide +kernel)
  rw [hsheet] at hexec
  cases hexec
  have hbits := (hshown.showsValue_iff List.getElem?_cons_zero hpieces _).mp hvalue
  revert hbits
  decide +kernel

end Vimgdb.Per.View
