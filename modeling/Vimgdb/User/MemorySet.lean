import Vimgdb.Gdb.MemoryWrite
import Vimgdb.User.MemoryRows

/-!
# Values that are written to memory

The digits that `gdb_memory_t::set` sends for a value are those of the bytes that the value stands for.

* `decoded`: what the memory view makes of digits.
* `Denotes`: the digits of the bytes that a value text stands for.
* `Meets`, `Good`, `encodes_iff`: the values for which exactly the digits are sent, and the accesses are
  inside.
-/

namespace Vimgdb.MemorySet

open Buffers Gdb
open Memory.View (byteChar)

/-! ## Digits -/

/-- What the memory view makes of digits. -/
def decoded : CStr → CStr
  | hi :: lo :: s => byteChar hi lo :: decoded s
  | _ => []

/-- The digits of the bytes that a value stands for. -/
inductive Denotes : List UInt8 → CStr → Prop
  /-- A string between quotes. -/
  | string (bs : List UInt8) : Denotes (34 :: bs ++ [34]) (hexText bs)
  /-- A character between quotes. -/
  | character (b : UInt8) : Denotes [39, b, 39] (hexByte b)
  /-- Two digits for each byte, behind a marker. -/
  | marked (s bs : List UInt8) (h : hexBytes (chars s) = some bs) (hbs : bs ≠ []) :
      Denotes (48 :: 120 :: s) (chars s)
  /-- Two digits for each byte. -/
  | digits (s bs : List UInt8) (h : hexBytes (chars s) = some bs) (hbs : bs ≠ []) :
      Denotes s (chars s)

theorem decoded_hexText (bs : List UInt8) : decoded (hexText bs) = chars bs := by
  induction bs with
  | nil => rfl
  | cons b bs ih =>
      have hcons : hexText (b :: bs) =
          hexDigit (b.toNat / 16) :: hexDigit (b.toNat % 16) :: hexText bs := rfl
      rw [hcons, decoded, ih, Memory.View.byteChar_hexDigit]
      rfl

/-! ## The values that are sent as they are meant -/

variable {junk : Char}

/-- The value is rejected, or the digits of what it denotes are sent; no access is outside. -/
def Meets (junk : Char) (value : List UInt8) : Prop :=
  ∃ r, digitsOf junk (chars value) = some r ∧ ∀ digits ∈ r, Denotes value digits

/-- One or more pairs of hexadecimal digits. -/
def HexPairs (s : List UInt8) : Prop :=
  s ≠ [] ∧ s.length % 2 = 0 ∧ ∀ b ∈ s, (digitValue 16 (Char.ofNat b.toNat)).isSome

/-- A string is rejected, or it is short and ASCII; what begins with a single quote is one ASCII character
between quotes; anything else is pairs of digits, behind a marker or not. -/
def Good : List UInt8 → Prop
  | 34 :: s =>
      (34 :: s)[(BitVec.ofNat 32 (34 :: s).length - 1).toNat]? ≠ some 34 ∨
        ∃ bs, s = bs ++ [34] ∧ bs.length < 2 ^ 31 ∧ ∀ b ∈ bs, b < 128
  | 39 :: s => ∃ b, s = [b, 39] ∧ b < 128
  | 48 :: 120 :: s => HexPairs s
  | s => HexPairs s

theorem hexPairs_iff {s : List UInt8} : HexPairs s ↔ ∃ bs, hexBytes (chars s) = some bs ∧ bs ≠ [] := by
  have hdigits : (∀ b ∈ s, (digitValue 16 (Char.ofNat b.toNat)).isSome) ↔
      ∀ c ∈ chars s, (digitValue 16 c).isSome := by
    rw [chars, List.forall_mem_map]
  have hlength : (chars s).length = s.length := List.length_map _
  have hempty : ∀ bs, hexBytes (chars s) = some bs → (bs ≠ [] ↔ s ≠ []) := by
    intro bs h
    have htwo := length_of_hexBytes h
    rw [hlength] at htwo
    rw [← List.length_pos_iff, ← List.length_pos_iff]
    omega
  unfold HexPairs
  rw [hdigits, ← hlength, ← isSome_hexBytes_iff, Option.isSome_iff_exists]
  constructor
  · rintro ⟨hs, bs, hbs⟩
    exact ⟨bs, hbs, (hempty bs hbs).mpr hs⟩
  · rintro ⟨bs, hbs, hne⟩
    exact ⟨(hempty bs hbs).mp hne, bs, hbs⟩

/-- What begins with a character that is no digit is no text of bytes. -/
theorem hexBytes_cons_ne {b : UInt8} {s bs : List UInt8} (hb : digitValue 16 (Char.ofNat b.toNat) = none) :
    hexBytes (chars (b :: s)) ≠ some bs := by
  intro h
  have hall := ((isSome_hexBytes_iff _).mp (Option.isSome_of_eq_some h)).2 _ List.mem_cons_self
  rw [hb] at hall
  cases hall

theorem denotes_string {s : List UInt8} {digits : CStr} :
    Denotes (34 :: s) digits ↔ ∃ bs, s = bs ++ [34] ∧ digits = hexText bs := by
  constructor
  · generalize hvalue : 34 :: s = value
    intro h
    cases h with
    | string bs => exact ⟨bs, List.tail_eq_of_cons_eq hvalue, rfl⟩
    | character b => exact absurd (List.head_eq_of_cons_eq hvalue) (by decide)
    | marked t bs => exact absurd (List.head_eq_of_cons_eq hvalue) (by decide)
    | digits t bs hbytes => exact absurd hbytes (hvalue ▸ hexBytes_cons_ne (by decide))
  · rintro ⟨bs, rfl, rfl⟩
    exact .string bs

theorem denotes_character {s : List UInt8} {digits : CStr} :
    Denotes (39 :: s) digits ↔ ∃ b, s = [b, 39] ∧ digits = hexByte b := by
  constructor
  · generalize hvalue : 39 :: s = value
    intro h
    cases h with
    | string bs => exact absurd (List.head_eq_of_cons_eq hvalue) (by decide)
    | character b => exact ⟨b, List.tail_eq_of_cons_eq hvalue, rfl⟩
    | marked t bs => exact absurd (List.head_eq_of_cons_eq hvalue) (by decide)
    | digits t bs hbytes => exact absurd hbytes (hvalue ▸ hexBytes_cons_ne (by decide))
  · rintro ⟨b, rfl, rfl⟩
    exact .character b

/-- Behind a marker only digits stand for bytes, and the marker itself is none. -/
theorem denotes_marked {s : List UInt8} : Denotes (48 :: 120 :: s) (chars s) ↔ HexPairs s := by
  rw [hexPairs_iff]
  constructor
  · generalize hvalue : 48 :: 120 :: s = value
    generalize hdigits : chars s = digits
    intro h
    cases h with
    | string bs => exact absurd (List.head_eq_of_cons_eq hvalue) (by decide)
    | character b => exact absurd (List.head_eq_of_cons_eq hvalue) (by decide)
    | marked t bs hbytes hbs => exact ⟨bs, hbytes, hbs⟩
    | digits t bs hbytes =>
        have hlength := congrArg List.length hdigits
        rw [← hvalue, chars, chars, List.length_map, List.length_map, List.length_cons,
          List.length_cons] at hlength
        omega
  · rintro ⟨bs, hbytes, hbs⟩
    exact .marked s bs hbytes hbs

/-- Without a quote or a marker only digits stand for bytes. -/
theorem denotes_digits {value : List UInt8} (hstring : value.head? ≠ some 34)
    (hcharacter : value.head? ≠ some 39) (hmarker : ∀ t, value ≠ 48 :: 120 :: t) :
    Denotes value (chars value) ↔ HexPairs value := by
  rw [hexPairs_iff]
  constructor
  · generalize hdigits : chars value = digits
    intro h
    cases h with
    | string bs => exact absurd rfl hstring
    | character b => exact absurd rfl hcharacter
    | marked t bs => exact absurd rfl (hmarker t)
    | digits t bs hbytes hbs => exact ⟨bs, hbytes, hbs⟩
  · rintro ⟨bs, hbytes, hbs⟩
    exact .digits value bs hbytes hbs

theorem meets_of_eq {value : List UInt8} {digits : CStr}
    (h : digitsOf junk (chars value) = some (some digits)) :
    Meets junk value ↔ Denotes value digits := by
  constructor
  · rintro ⟨r, hr, hdenotes⟩
    rw [h, Option.some_inj] at hr
    exact hdenotes digits (hr ▸ rfl)
  · intro hdenotes
    refine ⟨some digits, h, ?_⟩
    intro digits' hdigits'
    rwa [← Option.some_inj.mp hdigits']

theorem not_meets_of_eq {value : List UInt8} (h : digitsOf junk (chars value) = none) :
    ¬ Meets junk value := by
  rintro ⟨r, hr, -⟩
  rw [h] at hr
  cases hr

theorem meets_string (s : List UInt8) : Meets junk (34 :: s) ↔ Good (34 :: s) := by
  by_cases hlast : (34 :: s)[(BitVec.ofNat 32 (34 :: s).length - 1).toNat]? = some 34
  swap
  · exact iff_of_true ⟨none, digitsOf_open hlast, nofun⟩ (.inl hlast)
  have hgood : Good (34 :: s) ↔ ∃ bs, s = bs ++ [34] ∧ bs.length < 2 ^ 31 ∧ ∀ b ∈ bs, b < 128 :=
    or_iff_right (not_not_intro hlast)
  have hlen : ∀ bs : List UInt8, bs.length < 2 ^ 31 →
      (BitVec.ofNat 32 (34 :: (bs ++ [34])).length - 2).toNat = bs.length := by
    intro bs hbs
    rw [BitVec.toNat_sub, BitVec.toNat_ofNat, List.length_cons, List.length_append,
      List.length_singleton]
    have htwo : (2 : BitVec 32).toNat = 2 := rfl
    omega
  rw [hgood]
  by_cases hlong : 2 ^ 31 ≤ (BitVec.ofNat 32 (34 :: s).length - 2).toNat
  · refine iff_of_false (not_meets_of_eq (digitsOf_long hlast hlong)) ?_
    rintro ⟨bs, rfl, hbs, -⟩
    rw [hlen bs hbs] at hlong
    exact absurd hbs (Nat.not_lt.mpr hlong)
  generalize hn : (BitVec.ofNat 32 (34 :: s).length - 2).toNat = n at hlong
  have hshort : n < 2 ^ 31 := Nat.not_le.mp hlong
  obtain ⟨hle, hdigits⟩ := @digitsOf_string junk s n hlast hn hshort
  rw [meets_of_eq hdigits, denotes_string]
  constructor
  · rintro ⟨bs, rfl, heq⟩
    -- as many digits as the bytes have: the loop has seen all of them
    have hlength := congrArg List.length heq
    rw [length_flatMap_ctohexstr, length_hexText, chars, List.length_map,
      List.length_take_of_le hle] at hlength
    obtain rfl : n = bs.length := Nat.eq_of_mul_eq_mul_left Nat.two_pos hlength
    rw [List.take_left] at heq
    exact ⟨bs, rfl, hshort, (flatMap_ctohexstr_eq_iff bs).mp heq⟩
  · rintro ⟨bs, rfl, hbs, hascii⟩
    rw [hlen bs hbs] at hn
    subst hn
    refine ⟨bs, rfl, ?_⟩
    rw [List.take_left]
    exact (flatMap_ctohexstr_eq_iff bs).mpr hascii

theorem meets_character (s : List UInt8) : Meets junk (39 :: s) ↔ Good (39 :: s) := by
  cases s with
  | nil =>
      refine iff_of_false (not_meets_of_eq digitsOf_quote) ?_
      rintro ⟨b, h, -⟩
      cases h
  | cons b s =>
      rw [meets_of_eq (digitsOf_character b s), denotes_character]
      refine exists_congr fun d => and_congr_right fun h => ?_
      obtain rfl : b = d := List.head_eq_of_cons_eq h
      exact ctohexstr_eq_iff b

theorem meets_plain {value : List UInt8} (hstring : value.head? ≠ some 34)
    (hcharacter : value.head? ≠ some 39) : Meets junk value ↔ Good value := by
  by_cases hmarker : ∃ t, value = 48 :: 120 :: t
  · obtain ⟨t, rfl⟩ := hmarker
    rw [meets_of_eq (digitsOf_marked (chars t))]
    exact denotes_marked
  have hchar : ∀ (b q : UInt8), value.head? ≠ some b → q = b → (chars value).head? ≠ some (Char.ofNat q.toNat) := by
    rintro b q hb rfl hhead
    rw [chars, List.head?_map, Option.map_eq_some_iff] at hhead
    obtain ⟨a, ha, heq⟩ := hhead
    exact hb (char_inj heq ▸ ha)
  have hplain : ∀ t, chars value ≠ '0' :: 'x' :: t := by
    intro t h
    obtain ⟨b, v, rfl, hb, hv⟩ := List.map_eq_cons_iff.mp h
    obtain ⟨d, w, rfl, hd, -⟩ := List.map_eq_cons_iff.mp hv
    exact hmarker ⟨w, by rw [char_inj (b := 48) hb, char_inj (b := 120) hd]⟩
  rw [meets_of_eq (digitsOf_digits (hchar 34 34 hstring rfl) (hchar 39 39 hcharacter rfl) hplain),
    denotes_digits hstring hcharacter fun t ht => hmarker ⟨t, ht⟩]
  unfold Good
  split
  · exact absurd rfl hstring
  · exact absurd rfl hcharacter
  · rename_i t
    exact absurd ⟨t, rfl⟩ hmarker
  · rfl

/-- Exactly for these values the digits of what they denote are sent, and the accesses are inside; digits of
bytes are decoded to the bytes. -/
theorem encodes_iff (junk : Char) (value : List UInt8) :
    (Meets junk value ↔ Good value) ∧ (∀ bs, decoded (hexText bs) = chars bs) ∧
      ∀ token cnt addr, setCmd junk token cnt addr (chars value) =
        (digitsOf junk (chars value)).map fun r =>
          r.map fun digits => (writeLine token cnt addr digits, .ok) := by
  refine ⟨?_, decoded_hexText, fun token cnt addr => setCmd_eq junk token cnt addr (chars value)⟩
  by_cases hstring : value.head? = some 34
  · obtain ⟨s, rfl⟩ := List.head?_eq_some_iff.mp hstring
    exact meets_string s
  by_cases hcharacter : value.head? = some 39
  · obtain ⟨s, rfl⟩ := List.head?_eq_some_iff.mp hcharacter
    exact meets_character s
  exact meets_plain hstring hcharacter

/-- The digits of the byte 255 between double quotes are not its own. -/
theorem wide_byte_not_denoted : ¬ ∀ value, Meets '\x00' value := by
  intro h
  have hgood : Good [34, 255, 34] := (meets_string [255, 34]).mp (h [34, 255, 34])
  obtain hopen | ⟨bs, hbs, -, hascii⟩ := hgood
  · exact hopen rfl
  · obtain rfl : bs = [255] := (List.append_left_inj [34]).mp hbs.symm
    exact absurd (hascii 255 List.mem_cons_self) (by decide)

example : digitsOf '?' (chars [34, 255, 34]) = some (some "0/".toList) := by decide
example : digitsOf '?' (chars [34, 97, 10, 34]) = some (some "610a".toList) := by decide

end Vimgdb.MemorySet
