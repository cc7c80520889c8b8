import Vimgdb.User.PerSet
import Vimgdb.User.PerWritten

/-!
# The addresses of registers

`Per set`, the window and `per2h` each compute the address of a register from the base of its range and
its offset.

* `setAddress`, `viewAddress`, `headerAddress`: the addresses.
* `view_shows`: the digits that are shown are those at `viewAddress`.
* `Number.read_eq_iff`: the numbers that the lexer reads as they are written.
* `Addressed`: the addresses are the sum of what is written, in base 10 or 16.
* `addresses_iff`: it is so if and only if the numbers have less than 32 bits.
-/

namespace Vimgdb.Per

/-! ## Addresses -/

/-- What `Per set` writes to. -/
def setAddress (range : Range) (reg : Register) : BitVec 64 := range.base + reg.offset.zeroExtend 64

/-- What the window shows: two digits of the content are a byte, and the index has 32 bits. -/
def viewAddress (range : Range) (reg : Register) : BitVec 64 :=
  range.base + BitVec.ofNat 64 ((reg.offset * 2).toNat / 2)

/-- What `per2h` prints. -/
def headerAddress (range : Range) (reg : Register) : BitVec 64 :=
  range.base + reg.offset.zeroExtend 64

variable {M : Type} {T : Target M} {range : Range} {reg : Register}

theorem perSet_writes (junk : Char) (m : M) (range : Range) (reg : Register) (endian : Endian)
    (value : CStr) :
    perSet T junk m range.base reg endian value = (perContents junk reg endian value).bind fun text =>
      T.writeMemory m (setAddress range reg) text
        (if reg.nbytes = 0 then none else some reg.nbytes) := rfl

/-- The digits from the index of a register on are those of the bytes at its address. -/
theorem view_shows (m : M) (n : Nat) :
    (hexText ((List.range n).map fun i => T.byte m (range.base + BitVec.ofNat 64 i))).drop
      (reg.offset * 2).toNat = hexText ((List.range (n - (reg.offset * 2).toNat / 2)).map fun i =>
        T.byte m (viewAddress range reg + BitVec.ofNat 64 i)) := by
  have heven : (reg.offset * 2).toNat = 2 * ((reg.offset * 2).toNat / 2) := by
    rw [BitVec.toNat_mul]
    show reg.offset.toNat * 2 % 2 ^ 32 = 2 * (reg.offset.toNat * 2 % 2 ^ 32 / 2)
    omega
  rw [heven, drop_hexText, Nat.mul_div_cancel_left _ (by decide), ← List.map_drop]
  congr 1
  refine List.ext_getElem (by simp) fun i hi hi' => ?_
  unfold viewAddress
  simp only [List.getElem_map, List.getElem_drop, List.getElem_range, BitVec.add_assoc,
    BitVec.ofNat_add]

/-! ## Numbers -/

variable {n : Number}

/-- A number in base 16 is read as it is, up to 63 bits. -/
theorem Number.toNat_read_hex (h : n.hex = true) : n.read.toNat = min n.value (2 ^ 63 - 1) := by
  obtain ⟨hex, digits, ok⟩ := n
  obtain rfl : hex = true := h
  have hread : Number.read ⟨true, digits, ok⟩ =
      BitVec.ofInt 64 (saturate (readDigits 16 0 digits)) := rfl
  have hvalue : Number.value ⟨true, digits, ok⟩ = readDigits 16 0 digits := rfl
  rw [hread, hvalue, saturate_natCast, BitVec.ofInt_natCast, BitVec.toNat_ofNat]
  omega

/-- A number in base 10 is narrowed to an `int`, and that is widened with its sign. -/
theorem Number.read_decimal (h : n.hex = false) :
    n.read = (BitVec.ofNat 32 (min n.value (2 ^ 63 - 1))).signExtend 64 := by
  obtain ⟨hex, digits, ok⟩ := n
  obtain rfl : hex = false := h
  have hread : Number.read ⟨false, digits, ok⟩ = (atoi digits).signExtend 64 := rfl
  have hvalue : Number.value ⟨false, digits, ok⟩ = readDigits 10 0 digits := rfl
  have hdigits : ∀ c ∈ digits, (digitValue 10 c).isSome := ok
  rw [hread, hvalue, atoi, strtol_of_digits hdigits, saturate_natCast, BitVec.ofInt_natCast]

theorem toNat_signExtend (v : BitVec 32) : (v.signExtend 64).toNat =
    if v.toNat < 2 ^ 31 then v.toNat else v.toNat + (2 ^ 64 - 2 ^ 32) := by
  rw [BitVec.toNat_signExtend, BitVec.msb_eq_decide, BitVec.toNat_setWidth]
  have hlt := v.isLt
  split <;> rename_i h <;> simp at h <;> split <;> omega

/-- The numbers that the lexer reads as they are written. -/
theorem Number.read_eq_iff (h : n.value < 2 ^ 63) :
    n.read.toNat = n.value ↔ n.hex = true ∨ n.value < 2 ^ 31 := by
  cases hhex : n.hex with
  | true =>
      rw [n.toNat_read_hex hhex]
      simp
      omega
  | false =>
      rw [n.read_decimal hhex, toNat_signExtend, BitVec.toNat_ofNat, Nat.min_eq_left (by omega)]
      simp only [Bool.false_eq_true, false_or]
      split <;> omega

/-- Fields of 32 bits hold the numbers of 32 bits, however they are written. -/
theorem Number.toNat_setWidth_read (h : n.value < 2 ^ 32) :
    (n.read.setWidth 32).toNat = n.value := by
  rw [BitVec.toNat_setWidth]
  cases hhex : n.hex with
  | true =>
      rw [n.toNat_read_hex hhex]
      omega
  | false =>
      rw [n.read_decimal hhex, toNat_signExtend, BitVec.toNat_ofNat, Nat.min_eq_left (by omega)]
      split <;> omega

/-- Each number can be written in either base. -/
theorem Number.exists_of_value (hex : Bool) (v : Nat) : ∃ n : Number, n.hex = hex ∧ n.value = v := by
  cases hex with
  | true =>
      obtain ⟨hdigits, hread⟩ := readDigits_toDigits (by decide : 1 < 16) (by decide) v
      exact ⟨⟨true, Nat.toDigits 16 v, hdigits⟩, rfl, hread⟩
  | false =>
      obtain ⟨hdigits, hread⟩ := readDigits_toDigits (by decide : 1 < 10) (by decide) v
      exact ⟨⟨false, Nat.toDigits 10 v, hdigits⟩, rfl, hread⟩

/-- A number may be written in either base: the same is made of it. -/
def Number.Interchangeable {α : Type} (n : Number) (field : BitVec 64 → α) : Prop :=
  ∀ n' : Number, n'.value = n.value → field n'.read = field n.read

theorem Number.interchangeable_iff (h : n.value < 2 ^ 63) :
    n.Interchangeable id ↔ n.value < 2 ^ 31 := by
  constructor
  · intro hsame
    obtain ⟨dec, hdec, hdecValue⟩ := Number.exists_of_value false n.value
    obtain ⟨hex, hhex, hhexValue⟩ := Number.exists_of_value true n.value
    have hread : hex.read.toNat = hex.value :=
      (Number.read_eq_iff (hhexValue ▸ h)).mpr (Or.inl hhex)
    have heq : dec.read = hex.read := (hsame dec hdecValue).trans (hsame hex hhexValue).symm
    have hdecRead : dec.read.toNat = dec.value := by rw [heq, hread, hhexValue, hdecValue]
    rcases (Number.read_eq_iff (hdecValue ▸ h)).mp hdecRead with htrue | hlt
    · rw [hdec] at htrue
      cases htrue
    · exact hdecValue ▸ hlt
  · intro hlt n' hvalue
    refine BitVec.eq_of_toNat_eq ?_
    show n'.read.toNat = n.read.toNat
    rw [(Number.read_eq_iff (by omega)).mpr (Or.inr (by omega)),
      (Number.read_eq_iff h).mpr (Or.inr hlt), hvalue]

theorem Number.interchangeable_setWidth (h : n.value < 2 ^ 32) :
    n.Interchangeable (BitVec.setWidth 32) := by
  intro n' hvalue
  refine BitVec.eq_of_toNat_eq ?_
  rw [Number.toNat_setWidth_read (by omega), Number.toNat_setWidth_read h, hvalue]

/-! ## The condition -/

/-- The addresses of a register are the sum of what is written. -/
def SumsWritten (r : WrittenRange) (offset : Number) (reg : Register) : Prop :=
  (setAddress r.read reg).toNat = r.base.value + offset.value ∧
  (viewAddress r.read reg).toNat = r.base.value + offset.value ∧
  (headerAddress r.read reg).toNat = r.base.value + offset.value

/-- They are, and all numbers may be written in either base. -/
def Addressed (r : WrittenRange) (offset nbytes : Number) (reg : Register) : Prop :=
  SumsWritten r offset reg ∧ r.base.Interchangeable id ∧
    r.size.Interchangeable (BitVec.setWidth 32) ∧ offset.Interchangeable (BitVec.setWidth 32) ∧
    nbytes.Interchangeable (BitVec.setWidth 32)

theorem sumsWritten_iff {r : WrittenRange} {offset : Number} (hbase : r.base.value < 2 ^ 63)
    (hoffset : offset.value < 2 ^ 32) (hreg : reg.offset = offset.read.setWidth 32) :
    SumsWritten r offset reg ↔
      (r.base.hex = true ∨ r.base.value < 2 ^ 31) ∧ offset.value < 2 ^ 31 := by
  have hfield : reg.offset.toNat = offset.value := by
    rw [hreg, Number.toNat_setWidth_read hoffset]
  have hindex : (reg.offset * 2).toNat = offset.value * 2 % 2 ^ 32 := by
    rw [BitVec.toNat_mul, hfield]
    rfl
  have hset : (setAddress r.read reg).toNat = (r.base.read.toNat + offset.value) % 2 ^ 64 := by
    unfold setAddress WrittenRange.read
    rw [BitVec.toNat_add, BitVec.toNat_setWidth, hfield, Nat.mod_eq_of_lt (a := offset.value) (by omega)]
  have hheader : (headerAddress r.read reg).toNat = (r.base.read.toNat + offset.value) % 2 ^ 64 := hset
  have hview : (viewAddress r.read reg).toNat =
      (r.base.read.toNat + offset.value * 2 % 2 ^ 32 / 2) % 2 ^ 64 := by
    unfold viewAddress WrittenRange.read
    rw [BitVec.toNat_add, BitVec.toNat_ofNat, hindex,
      Nat.mod_eq_of_lt (a := offset.value * 2 % 2 ^ 32 / 2) (by omega)]
  have hlt := r.base.read.isLt
  unfold SumsWritten
  rw [hset, hview, hheader, ← Number.read_eq_iff hbase]
  constructor
  · rintro ⟨h, h', -⟩
    omega
  · rintro ⟨h, h'⟩
    omega

/-- The addresses of a register are those that are written, in either base, if and only if the base of
the range and the offset have less than 32 bits; with more, it depends on how the base is written. -/
theorem addresses_iff {text : CStr} {r : WrittenRange} {sec : WrittenSection} {name desc : CStr}
    {offset nbytes : Number} {opt : RegOpt} {bits : List WrittenBits}
    (hr : r ∈ (written text).ranges) (hsec : sec ∈ r.sections)
    (hentry : Entry.register name desc offset nbytes opt bits ∈ sec.entries)
    (hbase : r.base.value < 2 ^ 63) (hsize : r.size.value < 2 ^ 32) (hoffset : offset.value < 2 ^ 32)
    (hnbytes : nbytes.value < 2 ^ 32) :
    ∃ range ∈ (perparse text).ranges, range = r.read ∧ ∃ s ∈ range.sections, ∃ reg ∈ s.regs,
      reg = (Entry.register name desc offset nbytes opt bits).read ∧
      (Addressed r offset nbytes reg ↔ r.base.value < 2 ^ 31 ∧ offset.value < 2 ^ 31) ∧
      (SumsWritten r offset reg ↔
        (r.base.hex = true ∨ r.base.value < 2 ^ 31) ∧ offset.value < 2 ^ 31) := by
  have hrange : r.read ∈ (perparse text).ranges := by
    rw [perparse_eq]
    exact List.mem_map_of_mem hr
  have hsums : SumsWritten r offset (Entry.register name desc offset nbytes opt bits).read ↔ _ :=
    sumsWritten_iff hbase hoffset rfl
  refine ⟨r.read, hrange, rfl, sec.read, List.mem_map_of_mem hsec, _, List.mem_map_of_mem hentry, rfl,
    ?_, hsums⟩
  unfold Addressed
  rw [hsums, Number.interchangeable_iff hbase]
  constructor
  · rintro ⟨⟨-, hsmall⟩, hlt, -⟩
    exact ⟨hlt, hsmall⟩
  · rintro ⟨hlt, hsmall⟩
    exact ⟨⟨Or.inr hlt, hsmall⟩, hlt, Number.interchangeable_setWidth hsize,
      Number.interchangeable_setWidth hoffset, Number.interchangeable_setWidth hnbytes⟩

/-- A file with one register. -/
def oneRegisterText (base : String) : CStr :=
  ("range " ++ base ++ " 0x10\x7bsection \"A\"\x7bregister \"R\" \"\" 12 0x4\x7b\x7d\x7d\x7d").toList

private def twelve : Number := ⟨false, "12".toList, forall_mem_of_all (by decide)⟩

private def fourHex : Number := ⟨true, "4".toList, forall_mem_of_all (by decide)⟩

private def writtenRange (base : Number) : WrittenRange :=
  ⟨base, ⟨true, "10".toList, forall_mem_of_all (by decide)⟩,
    [⟨"A".toList, [.register "R".toList [] twelve fourHex {} []]⟩]⟩

/-- A small base, with the addresses of its register. -/
theorem small_base_sums : ∃ range ∈ (perparse (oneRegisterText "1073741824")).ranges,
    ∃ s ∈ range.sections, ∃ reg ∈ s.regs, (setAddress range reg).toNat = 0x4000000c ∧
      (viewAddress range reg).toNat = 0x4000000c ∧ (headerAddress range reg).toNat = 0x4000000c := by
  have hwritten : (written (oneRegisterText "1073741824")).ranges =
      [writtenRange ⟨false, "1073741824".toList, forall_mem_of_all (by decide)⟩] := by decide +kernel
  obtain ⟨range, hrange, rfl, s, hs, reg, hreg, -, hmeets, -⟩ := addresses_iff
    (hwritten ▸ List.mem_cons_self) List.mem_cons_self List.mem_cons_self (by decide +kernel)
    (by decide) (by decide) (by decide)
  exact ⟨_, hrange, s, hs, reg, hreg, (hmeets.mpr (by decide +kernel)).1⟩

/-- In base 10, an address above 2 GiB is another one. -/
theorem large_base_does_not_sum : ∃ r ∈ (written (oneRegisterText "3221225472")).ranges,
    ∃ sec ∈ r.sections, ∃ name desc offset nbytes opt bits,
      Entry.register name desc offset nbytes opt bits ∈ sec.entries ∧ r.base.value < 2 ^ 63 ∧
      r.size.value < 2 ^ 32 ∧ offset.value < 2 ^ 32 ∧ nbytes.value < 2 ^ 32 ∧
      ¬ Addressed r offset nbytes (Entry.register name desc offset nbytes opt bits).read := by
  have hwritten : (written (oneRegisterText "3221225472")).ranges =
      [writtenRange ⟨false, "3221225472".toList, forall_mem_of_all (by decide)⟩] := by decide +kernel
  refine ⟨_, hwritten ▸ List.mem_cons_self, _, List.mem_cons_self, _, _, _, _, _, _,
    List.mem_cons_self, by decide +kernel, by decide, by decide, by decide, fun hmeets => ?_⟩
  have hset := hmeets.1.1
  revert hset
  decide +kernel

end Vimgdb.Per
