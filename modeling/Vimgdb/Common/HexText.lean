import Mathlib.Algebra.Ring.Nat
import Vimgdb.Common.Numbers

/-!
# Bytes as hexadecimal text

What gdb reads of memory, and what it writes to it, is text with two digits for each byte.

* `hexText`, `hexBytes`: the text of bytes, and the bytes of a text.
* `hexBytes_hexText`, `map_toLower_of_hexBytes`: the text of bytes is read back, and digits are the text
  of their bytes up to their case.
* `hexBytes_append`, `hexText_append`, `drop_hexText`: parts of a text.
-/

namespace Vimgdb

/-- A digit of a byte. -/
def hexDigit (v : Nat) : Char := if v < 10 then Char.ofNat (48 + v) else Char.ofNat (87 + v)

/-- The text of a byte. -/
def hexByte (b : UInt8) : CStr := [hexDigit (b.toNat / 16), hexDigit (b.toNat % 16)]

/-- The text of bytes. -/
def hexText (bs : List UInt8) : CStr := bs.flatMap hexByte

/-- The bytes of a text with two digits for each. -/
def hexBytes : CStr → Option (List UInt8)
  | [] => some []
  | [_] => none
  | c :: d :: s => do
      let hi ← digitValue 16 c
      let lo ← digitValue 16 d
      let bs ← hexBytes s
      return UInt8.ofNat (hi * 16 + lo) :: bs

/-! ## Digits -/

/-- A digit is one of a few characters. -/
theorem toNat_lt_of_digitValue {c : Char} {v : Nat} (h : digitValue 16 c = some v) :
    c.toNat < 128 := by
  by_contra hle
  have hnot : ∀ d : Char, d.toNat < 128 → ¬ c ≤ d := by
    intro d hd hcd
    rw [Char.le_def, UInt32.le_iff_toNat_le] at hcd
    exact hle (Nat.lt_of_le_of_lt hcd hd)
  have hdecimal : ¬ ('0' ≤ c ∧ c ≤ '9') := fun hc => hnot '9' (by decide) hc.2
  have hlower : ¬ ('a' ≤ c ∧ c ≤ 'z') := fun hc => hnot 'z' (by decide) hc.2
  have hupper : ¬ ('A' ≤ c ∧ c ≤ 'Z') := fun hc => hnot 'Z' (by decide) hc.2
  unfold digitValue at h
  simp [hdecimal, hlower, hupper] at h

/-- A digit in lower case. -/
theorem toLower_of_digitValue {c : Char} {v : Nat} (h : digitValue 16 c = some v) :
    c.toLower = hexDigit v ∧ v < 16 ∧ c ≠ 'x' ∧ c ≠ '"' ∧ c ≠ '\'' := by
  have hall : ∀ n < 128, ∀ v, digitValue 16 (Char.ofNat n) = some v →
      (Char.ofNat n).toLower = hexDigit v ∧ v < 16 ∧ Char.ofNat n ≠ 'x' ∧ Char.ofNat n ≠ '"' ∧
        Char.ofNat n ≠ '\'' := by
    have hdigit : ∀ n < 128, (digitValue 16 (Char.ofNat n)).all (fun v =>
        (Char.ofNat n).toLower == hexDigit v && v < 16 && Char.ofNat n != 'x' &&
          Char.ofNat n != '"' && Char.ofNat n != '\'') = true := by decide +kernel
    intro n hn v hv
    have hn := hdigit n hn
    rw [hv] at hn
    simpa [and_assoc] using hn
  have hc := hall c.toNat (toNat_lt_of_digitValue h) v
  rw [Char.ofNat_toNat] at hc
  exact hc h

theorem digitValue_hexDigit {v : Nat} (h : v < 16) : digitValue 16 (hexDigit v) = some v := by
  have hall : ∀ v < 16, digitValue 16 (hexDigit v) = some v := by decide
  exact hall v h

/-- The text of bytes has two digits for each. -/
theorem length_hexText (bs : List UInt8) : (hexText bs).length = 2 * bs.length := by
  induction bs with
  | nil => rfl
  | cons b bs ih =>
      unfold hexText at ih ⊢
      rw [List.flatMap_cons, List.length_append, ih, List.length_cons]
      simp only [hexByte, List.length_cons, List.length_nil]
      omega

/-- The digits of some bytes, in lower case, are their text. -/
theorem map_toLower_of_hexBytes {s : CStr} {bs : List UInt8} (h : hexBytes s = some bs) :
    s.map Char.toLower = hexText bs := by
  fun_induction hexBytes s generalizing bs with
  | case1 =>
      cases h
      rfl
  | case2 c => cases h
  | case3 c d s ih =>
      simp only [Option.bind_eq_bind, Option.bind_eq_some_iff] at h
      obtain ⟨hi, hhi, lo, hlo, bs', hbs, heq⟩ := h
      cases heq
      obtain ⟨hc, hhi', -⟩ := toLower_of_digitValue hhi
      obtain ⟨hd, hlo', -⟩ := toLower_of_digitValue hlo
      have hval : (UInt8.ofNat (hi * 16 + lo)).toNat = hi * 16 + lo := by
        rw [UInt8.toNat_ofNat', Nat.mod_eq_of_lt]
        omega
      have hbyte : hexByte (UInt8.ofNat (hi * 16 + lo)) = [hexDigit hi, hexDigit lo] := by
        unfold hexByte
        rw [hval, show (hi * 16 + lo) / 16 = hi by omega, show (hi * 16 + lo) % 16 = lo by omega]
      rw [List.map_cons, List.map_cons, ih hbs, hc, hd]
      unfold hexText
      rw [List.flatMap_cons, hbyte]
      rfl

theorem length_of_hexBytes {s : CStr} {bs : List UInt8} (h : hexBytes s = some bs) :
    s.length = 2 * bs.length := by
  have := congrArg List.length (map_toLower_of_hexBytes h)
  rwa [List.length_map, length_hexText] at this

/-- A text of bytes is pairs of digits. -/
theorem isSome_hexBytes_iff (s : CStr) :
    (hexBytes s).isSome ↔ s.length % 2 = 0 ∧ ∀ c ∈ s, (digitValue 16 c).isSome := by
  fun_induction hexBytes s with
  | case1 => exact iff_of_true rfl ⟨rfl, nofun⟩
  | case2 c => exact iff_of_false nofun fun h => absurd h.1 Nat.one_ne_zero
  | case3 c d s ih =>
      have hlength : (c :: d :: s).length % 2 = s.length % 2 := Nat.add_mod_right s.length 2
      rw [hlength, List.forall_mem_cons, List.forall_mem_cons]
      cases hc : digitValue 16 c with
      | none => exact iff_of_false nofun fun h => absurd h.2.1 nofun
      | some hi =>
          cases hd : digitValue 16 d with
          | none => exact iff_of_false nofun fun h => absurd h.2.2.1 nofun
          | some lo =>
              cases hs : hexBytes s with
              | none =>
                  rw [hs] at ih
                  exact iff_of_false nofun fun h => absurd (ih.mpr ⟨h.1, h.2.2.2⟩) nofun
              | some bs =>
                  rw [hs] at ih
                  obtain ⟨hlen, hall⟩ := ih.mp rfl
                  exact iff_of_true rfl ⟨hlen, rfl, rfl, hall⟩

/-- A text of bytes and what is behind it. -/
theorem hexBytes_append {s t : CStr} {bs : List UInt8} (h : hexBytes s = some bs) :
    hexBytes (s ++ t) = (hexBytes t).map (bs ++ ·) := by
  fun_induction hexBytes s generalizing bs with
  | case1 =>
      cases h
      rw [List.nil_append]
      cases hexBytes t <;> rfl
  | case2 c => cases h
  | case3 c d s ih =>
      simp only [Option.bind_eq_bind, Option.bind_eq_some_iff] at h
      obtain ⟨hi, hhi, lo, hlo, bs', hbs, heq⟩ := h
      cases heq
      rw [List.cons_append, List.cons_append, hexBytes, hhi, hlo, ih hbs]
      cases hexBytes t <;> rfl

theorem hexText_append (bs bs' : List UInt8) : hexText (bs ++ bs') = hexText bs ++ hexText bs' :=
  List.flatMap_append

theorem drop_hexText (bs : List UInt8) (k : Nat) : (hexText bs).drop (2 * k) = hexText (bs.drop k) := by
  induction k generalizing bs with
  | zero => rfl
  | succ k ih =>
      cases bs with
      | nil => exact List.drop_nil
      | cons b bs =>
          rw [Nat.mul_succ, List.drop_succ_cons, ← ih]
          rfl

/-- Two texts of bytes are equal only if the bytes are. -/
theorem hexBytes_hexText (bs : List UInt8) : hexBytes (hexText bs) = some bs := by
  induction bs with
  | nil => rfl
  | cons b bs ih =>
      have hlt := b.toNat_lt
      have hb : UInt8.ofNat (b.toNat / 16 * 16 + b.toNat % 16) = b := by
        rw [Nat.div_add_mod']
        exact UInt8.ofNat_toNat
      show hexBytes (hexDigit (b.toNat / 16) :: hexDigit (b.toNat % 16) :: hexText bs) = some (b :: bs)
      rw [hexBytes, digitValue_hexDigit (by omega), digitValue_hexDigit (by omega), ih]
      exact congrArg (fun x => some (x :: bs)) hb

end Vimgdb
