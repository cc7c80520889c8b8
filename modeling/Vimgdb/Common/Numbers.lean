import Mathlib.Algebra.Ring.Nat
import Vimgdb.Common.Strings

/-!
# Numbers in C strings

The functions of the C library that read a number from the front of a string.

* `strtol`: blanks, a sign, then digits as far as they go; the value saturates at 64 bits.
* `atoi`: the same in base 10, narrowed to an `int`.
* `strtollHex`: the same in base 16, behind an optional `0x`.
-/

namespace Vimgdb

/-- `isspace`. -/
def isSpace (c : Char) : Bool := c ∈ [' ', '\t', '\n', '\x0b', '\x0c', '\r']

/-- The value of a digit; letters count from 10. -/
def digitValue (base : Nat) (c : Char) : Option Nat :=
  let v :=
    if '0' ≤ c ∧ c ≤ '9' then c.toNat - '0'.toNat
    else if 'a' ≤ c ∧ c ≤ 'z' then c.toNat - 'a'.toNat + 10
    else if 'A' ≤ c ∧ c ≤ 'Z' then c.toNat - 'A'.toNat + 10
    else base
  if v < base then some v else none

/-- The digits at the front of the string, read behind `acc`. -/
def readDigits (base acc : Nat) : CStr → Nat
  | [] => acc
  | c :: s =>
      match digitValue base c with
      | some d => readDigits base (acc * base + d) s
      | none => acc

/-- A value is held in a `long`: it stops at the ends of the range. -/
def saturate (v : Int) : Int := max (-9223372036854775808) (min v 9223372036854775807)

/-- `strtol`, for a base without a marker of its own. -/
def strtol (base : Nat) (s : CStr) : Int :=
  match s.dropWhile isSpace with
  | '-' :: s => saturate (-(readDigits base 0 s : Int))
  | '+' :: s => saturate (readDigits base 0 s)
  | s => saturate (readDigits base 0 s)

/-- `atoi`: the `long` is narrowed to an `int`. -/
def atoi (s : CStr) : BitVec 32 := BitVec.ofInt 32 (strtol 10 s)

/-- The hexadecimal marker is skipped. -/
def skipHexMarker : CStr → CStr
  | '0' :: 'x' :: s => s
  | '0' :: 'X' :: s => s
  | s => s

/-- `strtoll` with base 16. -/
def strtollHex (s : CStr) : BitVec 64 :=
  match s.dropWhile isSpace with
  | '-' :: s => BitVec.ofInt 64 (saturate (-(readDigits 16 0 (skipHexMarker s) : Int)))
  | '+' :: s => BitVec.ofInt 64 (saturate (readDigits 16 0 (skipHexMarker s)))
  | s => BitVec.ofInt 64 (saturate (readDigits 16 0 (skipHexMarker s)))

example : atoi "42\",".toList = 42 := by decide

example : strtollHex "0x00ff".toList = 255 := by decide

/-! ## Digits -/

variable {base acc : Nat} {s t : CStr}

/-- Digits are read one after the other. -/
theorem readDigits_append (hs : ∀ c ∈ s, (digitValue base c).isSome) (t : CStr) :
    readDigits base acc (s ++ t) = readDigits base (readDigits base acc s) t := by
  induction s generalizing acc with
  | nil => rfl
  | cons c s ih =>
      obtain ⟨d, hd⟩ := Option.isSome_iff_exists.mp (hs c List.mem_cons_self)
      rw [List.cons_append, readDigits, readDigits, hd]
      exact ih fun e he => hs e (List.mem_cons_of_mem _ he)

theorem digitValue_digitChar {d : Nat} (hbase : base ≤ 16) (h : d < base) :
    digitValue base d.digitChar = some d := by
  have hall : ∀ base < 17, ∀ d < base, digitValue base (Nat.digitChar d) = some d := by decide
  exact hall base (Nat.lt_succ_of_le hbase) d h

/-- The digits of a number are digits, and read as the number. -/
theorem readDigits_toDigits (hlow : 1 < base) (hhigh : base ≤ 16) (n : Nat) :
    (∀ c ∈ Nat.toDigits base n, (digitValue base c).isSome) ∧
      readDigits base 0 (Nat.toDigits base n) = n := by
  induction n using Nat.strongRecOn with
  | ind n ih =>
      rw [Nat.toDigits_eq_if hlow]
      split
      · next hlt =>
        have hdigit := digitValue_digitChar hhigh hlt
        refine ⟨fun c hc => ?_, ?_⟩
        · obtain rfl := List.mem_singleton.mp hc
          rw [hdigit]
          rfl
        · rw [readDigits, hdigit]
          show 0 * base + n = n
          omega
      · next hle =>
        obtain ⟨hdigits, hread⟩ := ih (n / base) (Nat.div_lt_self (by omega) hlow)
        have hlast := digitValue_digitChar hhigh (Nat.mod_lt n (Nat.zero_lt_of_lt hlow))
        refine ⟨fun c hc => ?_, ?_⟩
        · rcases List.mem_append.mp hc with hc | hc
          · exact hdigits c hc
          · obtain rfl := List.mem_singleton.mp hc
            rw [hlast]
            rfl
        · rw [readDigits_append hdigits, hread, readDigits, hlast]
          exact Nat.div_add_mod' n base

/-- Zeros in front of a number do not matter. -/
theorem readDigits_zeros (n : Nat) (s : CStr) :
    readDigits 16 0 (List.replicate n '0' ++ s) = readDigits 16 0 s := by
  induction n with
  | zero => rfl
  | succ n ih =>
      rw [List.replicate_succ, List.cons_append, readDigits]
      exact ih

/-- A number without a sign saturates above. -/
theorem saturate_natCast (v : Nat) : saturate v = ((min v (2 ^ 63 - 1) : Nat) : Int) := by
  unfold saturate
  omega

/-- A text of digits has no blanks in front, and no sign. -/
theorem dropWhile_isSpace_of_digits (h : ∀ c ∈ s, (digitValue base c).isSome) :
    s.dropWhile isSpace = s ∧ ∀ t, s ≠ '-' :: t ∧ s ≠ '+' :: t := by
  have hnone : ∀ c ∈ [' ', '\t', '\n', '\x0b', '\x0c', '\r', '-', '+'], ¬ (digitValue base c).isSome := by
    intro c hc
    have hvalue : digitValue base c = none := by
      simp only [List.mem_cons, List.not_mem_nil, or_false] at hc
      rcases hc with rfl | rfl | rfl | rfl | rfl | rfl | rfl | rfl <;> exact if_neg (Nat.lt_irrefl _)
    rw [hvalue]
    exact Bool.false_ne_true
  cases s with
  | nil => exact ⟨rfl, fun t => ⟨nofun, nofun⟩⟩
  | cons c s =>
      have hc := h c List.mem_cons_self
      refine ⟨List.dropWhile_cons_of_neg fun hspace => ?_, fun t => ⟨fun heq => ?_, fun heq => ?_⟩⟩
      · refine hnone c ?_ hc
        unfold isSpace at hspace
        have hmem := of_decide_eq_true hspace
        simp only [List.mem_cons, List.not_mem_nil, or_false] at hmem ⊢
        tauto
      · cases heq
        exact hnone '-' (by decide) hc
      · cases heq
        exact hnone '+' (by decide) hc

/-- What has digits alone is read as a number without a sign, which saturates. -/
theorem strtol_of_digits (h : ∀ c ∈ s, (digitValue base c).isSome) :
    strtol base s = saturate (readDigits base 0 s) := by
  obtain ⟨hspaces, hsign⟩ := dropWhile_isSpace_of_digits h
  unfold strtol
  rw [hspaces]
  split
  · next t => exact absurd rfl (hsign t).1
  · next t => exact absurd rfl (hsign t).2
  · rfl

theorem toNat_strtollHex (h : ∀ c ∈ s, (digitValue 16 c).isSome) :
    (strtollHex s).toNat = min (readDigits 16 0 s) (2 ^ 63 - 1) := by
  obtain ⟨hspaces, hsign⟩ := dropWhile_isSpace_of_digits h
  have hmarker : skipHexMarker s = s := by
    have hne : ∀ c ∈ s, ∀ d, ¬ (digitValue 16 d).isSome → c ≠ d := fun c hc d hd heq =>
      hd (heq ▸ h c hc)
    unfold skipHexMarker
    split
    · next t => exact absurd rfl (hne 'x' (by simp) 'x' (by decide))
    · next t => exact absurd rfl (hne 'X' (by simp) 'X' (by decide))
    · rfl
  have hvalue : strtollHex s = BitVec.ofInt 64 (saturate (readDigits 16 0 s)) := by
    unfold strtollHex
    rw [hspaces]
    split
    · next t => exact absurd rfl (hsign t).1
    · next t => exact absurd rfl (hsign t).2
    · rw [hmarker]
  rw [hvalue, saturate_natCast, BitVec.ofInt_natCast, BitVec.toNat_ofNat]
  omega

end Vimgdb
