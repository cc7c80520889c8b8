import Vimgdb.Common.Printf
import Vimgdb.Lib.Buffer

/-!
# Numbers as text

`itoa` of `string.cc` for its four types, with the buffer it allocates anew.

* `strlen`: the digits that a number has; powers are exact.
* `Dest`, `Dest.grow`: the buffer, and a larger one in its place.
* `itoaULong`, `itoaUInt`, `itoaLong`, `itoaInt`: the functions.
* `Denotes`: the number that a text says.
* `exists_itoaULong`: the digits are in the buffer, which has room for them.
* `itoa_iff`: the text says the number unless it is the least `int`.
-/

namespace Vimgdb.Itoa

open Buffers Printf

/-! ## The functions -/

/-- The loop of `strlen`; it is over after `fuel` rounds. -/
def strlenLoop (val base : Nat) : Nat → Nat → Option Nat
  | 0, _ => none
  | fuel + 1, len => if val < base ^ len then some len else strlenLoop val base fuel (len + 1)

/-- `strlen` of an unsigned `long`.  From base 2 on, 64 rounds are enough, and in front of it the loop
has no end. -/
def strlen (val : BitVec 64) (base : Nat) : Option Nat := strlenLoop val.toNat base 64 1

/-- `*s` and `*max`; there may be no buffer yet. -/
structure Dest where
  mem : Option CStr := none
  max : BitVec 32 := 0

/-- `*max` is the size of what is allocated. -/
def Dest.Recorded (dst : Dest) : Prop := (dst.mem.getD []).length = dst.max.toNat

/-- The text in the buffer. -/
def Dest.text (dst : Dest) : Option CStr := dst.mem.bind (Buffers.text '\x00')

/-- The buffer is allocated anew if it is too small; `junk` is what new memory contains. -/
def Dest.grow (junk : Char) (dst : Dest) (len : BitVec 32) : Dest :=
  if dst.max < len then ⟨some (List.replicate (dst.max + len).toNat junk), dst.max + len⟩ else dst

/-- `sprintf` -/
def Dest.print (dst : Dest) (mem : CStr) (fmt : String) (args : List Arg) : Option Dest := do
  let t ← vsnprintf fmt.toList args
  let mem ← store mem 0 (t ++ ['\x00'])
  return { dst with mem := some mem }

/-- `itoa` of an unsigned `long`: the buffer, and whether it is returned.  `s` may be a null pointer. -/
def itoaULong (junk : Char) (v : BitVec 64) (s : Option Dest) (base : Nat) (neg : Bool) :
    Option (Bool × Option Dest) :=
  match s with
  | none => some (false, none)
  | some dst => do
      let n ← strlen v base
      let dst := dst.grow junk (BitVec.ofNat 32 n + 1 + if neg then 1 else 0)
      match dst.mem with
      | none => return (false, some { dst with max := 0 })
      | some mem =>
          let sign := .str (if neg then "-".toList else [])
          if base = 10 then
            let dst ← dst.print mem "%s%lu" [sign, .long v]
            return (true, some dst)
          else if base = 16 then
            let dst ← dst.print mem "%s%lx" [sign, .long v]
            return (true, some dst)
          else return (false, some dst)

/-- `itoa` of an `unsigned int` -/
def itoaUInt (junk : Char) (v : BitVec 32) (s : Option Dest) (base : Nat) (neg : Bool) :
    Option (Bool × Option Dest) := itoaULong junk (v.zeroExtend 64) s base neg

/-- `itoa` of an `int`: it is negated as an `int`, and then extended. -/
def itoaInt (junk : Char) (v : BitVec 32) (s : Option Dest) (base : Nat) :
    Option (Bool × Option Dest) :=
  itoaULong junk ((if v.slt 0 then v * -1 else v).signExtend 64) s base (v.slt 0)

/-- `itoa` of a `long` -/
def itoaLong (junk : Char) (v : BitVec 64) (s : Option Dest) (base : Nat) :
    Option (Bool × Option Dest) :=
  itoaULong junk (if v.slt 0 then v * -1 else v) s base (v.slt 0)

/-- An argument of one of the four types; the unsigned ones come with a sign. -/
inductive Value
  | uint (v : BitVec 32) (neg : Bool := false)
  | int (v : BitVec 32)
  | long (v : BitVec 64)
  | ulong (v : BitVec 64) (neg : Bool := false)
  deriving DecidableEq

/-- The number. -/
def Value.toInt : Value → Int
  | uint v neg => if neg then -(v.toNat : Int) else v.toNat
  | int v => v.toInt
  | long v => v.toInt
  | ulong v neg => if neg then -(v.toNat : Int) else v.toNat

/-- The overload of its type. -/
def Value.itoa (junk : Char) (s : Option Dest) (base : Nat) : Value → Option (Bool × Option Dest)
  | uint v neg => itoaUInt junk v s base neg
  | int v => itoaInt junk v s base
  | long v => itoaLong junk v s base
  | ulong v neg => itoaULong junk v s base neg

/-! ## The digits -/

theorem exists_strlenLoop {val base : Nat} {fuel len : Nat} (h : val < base ^ (len + fuel)) :
    ∃ n, strlenLoop val base (fuel + 1) len = some n ∧ val < base ^ n ∧ len ≤ n ∧ n ≤ len + fuel := by
  induction fuel generalizing len with
  | zero => exact ⟨len, if_pos h, h, Nat.le_refl _, Nat.le_refl _⟩
  | succ fuel ih =>
      by_cases hlt : val < base ^ len
      · exact ⟨len, if_pos hlt, hlt, Nat.le_refl _, Nat.le_add_right _ _⟩
      · obtain ⟨n, hn, hval, hle, hle'⟩ := @ih (len + 1) (by rwa [Nat.add_assoc, Nat.add_comm 1])
        exact ⟨n, (if_neg hlt).trans hn, hval, by omega, by omega⟩

/-- From base 2 on, the loop ends, and there is room for the digits. -/
theorem exists_strlen {base : Nat} (hbase : 2 ≤ base) (v : BitVec 64) :
    ∃ n, strlen v base = some n ∧ (Nat.toDigits base v.toNat).length ≤ n ∧ n ≤ 64 := by
  have hlt : v.toNat < base ^ (1 + 63) :=
    Nat.lt_of_lt_of_le v.isLt (Nat.pow_le_pow_left hbase 64)
  obtain ⟨n, hn, hval, hle, hle'⟩ := exists_strlenLoop hlt
  exact ⟨n, hn, (Nat.length_toDigits_le_iff hbase (by omega)).mpr hval, hle'⟩

/-- The digits, with a sign. -/
def digits (base : Nat) (neg : Bool) (v : Nat) : CStr :=
  (if neg then "-".toList else []) ++ Nat.toDigits base v

theorem vsnprintf_lu (neg : Bool) (v : BitVec 64) :
    vsnprintf "%s%lu".toList [.str (if neg then "-".toList else []), .long v] =
      some (digits 10 neg v.toNat) := by
  have hconv : Spec.convert { long := true, started := true } 'u' (.long v) =
      some (Nat.toDigits 10 v.toNat) := by
    simp [Spec.convert, Spec.signed, Spec.number, Spec.fill, Spec.digits]
  unfold vsnprintf digits
  rw [scanned_of_notMem (by decide)]
  cases neg <;> simp [scan, convert_string, Spec.modify, hconv, scanned]

theorem vsnprintf_lx (neg : Bool) (v : BitVec 64) :
    vsnprintf "%s%lx".toList [.str (if neg then "-".toList else []), .long v] =
      some (digits 16 neg v.toNat) := by
  have hconv : Spec.convert { long := true, started := true } 'x' (.long v) =
      some (Nat.toDigits 16 v.toNat) := by
    simp [Spec.convert, Spec.hex, Spec.number, Spec.fill, Spec.digits]
  unfold vsnprintf digits
  rw [scanned_of_notMem (by decide)]
  cases neg <;> simp [scan, convert_string, Spec.modify, hconv, scanned]

theorem nul_notMem_digits {base : Nat} (hlow : 1 < base) (hhigh : base ≤ 16) (neg : Bool) (v : Nat) :
    '\x00' ∉ digits base neg v := by
  have hdigits : '\x00' ∉ Nat.toDigits base v := fun h => by
    have hsome := (readDigits_toDigits hlow hhigh v).1 _ h
    have hnone : digitValue base '\x00' = none := if_neg (Nat.lt_irrefl _)
    rw [hnone] at hsome
    cases hsome
  unfold digits
  rw [List.mem_append, not_or]
  exact ⟨by cases neg <;> decide, hdigits⟩

/-! ## The buffer -/

variable {junk : Char} {dst : Dest} {base n : Nat} {neg : Bool}

theorem recorded_grow (h : dst.Recorded) (len : BitVec 32) : (dst.grow junk len).Recorded := by
  unfold Dest.grow
  split
  · exact List.length_replicate
  · exact h

/-- It is large enough behind the allocation. -/
theorem le_grow {len : BitVec 32} (hlen : len.toNat < 2 ^ 31) : len ≤ (dst.grow junk len).max := by
  unfold Dest.grow
  split
  · next hlt =>
    rw [BitVec.lt_def] at hlt
    rw [BitVec.le_def, BitVec.toNat_add, Nat.mod_eq_of_lt (by omega)]
    exact Nat.le_add_left _ _
  · next hle => exact BitVec.not_lt.mp hle

/-- A text that fits is printed. -/
theorem exists_print {mem t : CStr} {fmt : String} {args : List Arg}
    (hfmt : vsnprintf fmt.toList args = some t) (hnul : '\x00' ∉ t) (hmem : dst.mem = some mem)
    (hrecorded : dst.Recorded) (hfits : t.length + 1 ≤ dst.max.toNat) :
    ∃ dst', dst.print mem fmt args = some dst' ∧ dst'.Recorded ∧ dst'.max = dst.max ∧
      dst'.text = some t := by
  unfold Dest.Recorded at hrecorded
  rw [hmem, Option.getD_some] at hrecorded
  have hlength : (mem.take (t.length + 1)).length = (t ++ ['\x00']).length := by
    rw [List.length_append, List.length_take_of_le (by omega)]
    rfl
  have hstore := @store_append Char [] _ (mem.drop (t.length + 1)) _ 0 rfl hlength
  rw [List.nil_append, List.take_append_drop, List.nil_append] at hstore
  refine ⟨{ dst with mem := some (t ++ ['\x00'] ++ mem.drop (t.length + 1)) }, ?_, ?_, rfl, ?_⟩
  · unfold Dest.print
    rw [hfmt, Option.bind_eq_bind, Option.bind_some, hstore]
    rfl
  · show (t ++ ['\x00'] ++ mem.drop (t.length + 1)).length = dst.max.toNat
    rw [List.length_append, List.length_append, List.length_drop, ← hrecorded]
    show t.length + 1 + _ = _
    omega
  · show Buffers.text '\x00' (t ++ ['\x00'] ++ mem.drop (t.length + 1)) = some t
    rw [List.append_assoc, List.singleton_append, text_append, List.takeWhile_eq_self_iff.mpr]
    intro c hc
    simpa using fun heq : c = '\x00' => hnul (heq ▸ hc)

/-- In base 10 and in base 16, the digits are in the buffer, which has room for them and the 0. -/
theorem exists_itoaULong (junk : Char) (v : BitVec 64) (h : dst.Recorded) (hbase : base = 10 ∨ base = 16)
    (neg : Bool) : ∃ dst', itoaULong junk v (some dst) base neg = some (true, some dst') ∧
      dst'.Recorded ∧ dst'.text = some (digits base neg v.toNat) ∧
      (digits base neg v.toNat).length + 1 ≤ dst'.max.toNat := by
  obtain ⟨n, hn, hle, hsmall⟩ := @exists_strlen base (by omega) v
  have hlen : (BitVec.ofNat 32 n + 1 + if neg then 1 else 0).toNat = n + 1 + if neg then 1 else 0 := by
    have hone : (1 : BitVec 32).toNat = 1 := rfl
    have hzero : (0 : BitVec 32).toNat = 0 := rfl
    rw [BitVec.toNat_add, BitVec.toNat_add, BitVec.toNat_ofNat, hone]
    cases neg
    · rw [if_neg Bool.false_ne_true, if_neg Bool.false_ne_true, hzero]
      omega
    · rw [if_pos rfl, if_pos rfl, hone]
      omega
  have hdigits : (digits base neg v.toNat).length + 1 ≤ n + 1 + if neg then 1 else 0 := by
    unfold digits
    rw [List.length_append]
    cases neg
    · show 0 + _ + 1 ≤ n + 1 + 0
      omega
    · show 1 + _ + 1 ≤ n + 1 + 1
      omega
  have hgrown := @recorded_grow junk dst h (BitVec.ofNat 32 n + 1 + if neg then 1 else 0)
  have hroom := @le_grow junk dst (BitVec.ofNat 32 n + 1 + if neg then 1 else 0) (by rw [hlen]; split <;> omega)
  rw [BitVec.le_def, hlen] at hroom
  have hfits := Nat.le_trans hdigits hroom
  generalize hdst : dst.grow junk (BitVec.ofNat 32 n + 1 + if neg then 1 else 0) = dst₁ at *
  cases hmem : dst₁.mem with
  | none =>
      -- a buffer that does not exist has no room
      unfold Dest.Recorded at hgrown
      rw [hmem] at hgrown
      have hzero : dst₁.max.toNat = 0 := hgrown.symm
      omega
  | some mem =>
      have hnul := @nul_notMem_digits base (by omega) (by omega) neg v.toNat
      unfold itoaULong
      rcases hbase with rfl | rfl
      · obtain ⟨dst', hprint, hrecorded, hmax, htext⟩ :=
          exists_print (vsnprintf_lu neg v) hnul hmem hgrown hfits
        refine ⟨dst', ?_, hrecorded, htext, by rw [hmax]; exact hfits⟩
        simp only [hn, Option.bind_eq_bind, Option.bind_some, hdst, hmem, hprint]
        rfl
      · obtain ⟨dst', hprint, hrecorded, hmax, htext⟩ :=
          exists_print (vsnprintf_lx neg v) hnul hmem hgrown hfits
        refine ⟨dst', ?_, hrecorded, htext, by rw [hmax]; exact hfits⟩
        simp only [hn, Option.bind_eq_bind, Option.bind_some, hdst, hmem, hprint]
        rfl

/-! ## The number -/

/-- A text says a number: digits, which may have a sign in front. -/
def Denotes (s : CStr) (v : Int) : Prop :=
  ∃ ds, ds ≠ [] ∧ (∀ c ∈ ds, c.isDigit) ∧
    ((s = ds ∧ v = readDigits 10 0 ds) ∨ (s = '-' :: ds ∧ v = -(readDigits 10 0 ds : Int)))

/-- It does not say another one. -/
theorem Denotes.unique {s : CStr} {v v' : Int} (h : Denotes s v) (h' : Denotes s v') : v = v' := by
  obtain ⟨ds, -, hdigits, ⟨rfl, rfl⟩ | ⟨rfl, rfl⟩⟩ := h
  · obtain ⟨ds', -, -, ⟨rfl, rfl⟩ | ⟨rfl, rfl⟩⟩ := h'
    · rfl
    · exact absurd (hdigits '-' List.mem_cons_self) (by decide)
  · obtain ⟨ds', -, hdigits', ⟨rfl, rfl⟩ | ⟨heq, rfl⟩⟩ := h'
    · exact absurd ( hdigits' '-' List.mem_cons_self) (by decide)
    · obtain rfl := (List.cons.inj heq).2
      rfl

/-- The digits say the number. -/
theorem denotes_digits (neg : Bool) (v : Nat) :
    Denotes (digits 10 neg v) (if neg then -(v : Int) else v) := by
  refine ⟨Nat.toDigits 10 v, Nat.toDigits_ne_nil,
    fun c hc => Nat.isDigit_of_mem_toDigits (by decide) (by decide) hc, ?_⟩
  rw [(readDigits_toDigits (by decide) (by decide) v).2]
  cases neg
  · exact Or.inl ⟨rfl, rfl⟩
  · exact Or.inr ⟨rfl, rfl⟩

/-- What the overloads hand on to the one for unsigned `long`. -/
def Value.magnitude : Value → BitVec 64
  | uint v _ => v.zeroExtend 64
  | int v => (if v.slt 0 then v * -1 else v).signExtend 64
  | long v => if v.slt 0 then v * -1 else v
  | ulong v _ => v

def Value.negative : Value → Bool
  | uint _ neg => neg
  | int v => v.slt 0
  | long v => v.slt 0
  | ulong _ neg => neg

theorem Value.itoa_eq (junk : Char) (s : Option Dest) (base : Nat) (x : Value) :
    x.itoa junk s base = itoaULong junk x.magnitude s base x.negative := by
  cases x <;> rfl

theorem slt_zero_iff {w : Nat} (v : BitVec w) : v.slt 0 = true ↔ 2 ^ w ≤ 2 * v.toNat :=
  BitVec.slt_zero_iff_msb_cond.trans BitVec.msb_eq_true_iff_two_mul_ge

/-- The negation of a number that is not 0. -/
theorem toNat_mul_neg_one {w : Nat} {v : BitVec w} (h : 0 < v.toNat) :
    (v * -1).toNat = 2 ^ w - v.toNat := by
  have hneg : v * -1 = -v := (BitVec.mul_neg v 1).trans (congrArg _ (BitVec.mul_one v))
  have hv := v.isLt
  rw [hneg, BitVec.toNat_neg, Nat.mod_eq_of_lt (by omega)]

/-- Negating and extending does not change the number, but for the least `int`, whose negation is itself. -/
theorem Value.toInt_eq_iff (x : Value) :
    x.toInt = (if x.negative then -(x.magnitude.toNat : Int) else x.magnitude.toNat) ↔
      x ≠ .int 0x80000000 := by
  cases x with
  | uint v neg =>
      refine iff_of_true ?_ nofun
      have hv : (v.zeroExtend 64).toNat = v.toNat := by
        rw [BitVec.toNat_setWidth]
        exact Nat.mod_eq_of_lt (Nat.lt_trans v.isLt (by decide))
      show (if neg then -(v.toNat : Int) else v.toNat) =
        if neg then -((v.zeroExtend 64).toNat : Int) else (v.zeroExtend 64).toNat
      rw [hv]
  | ulong v neg => exact iff_of_true rfl nofun
  | long v =>
      refine iff_of_true ?_ nofun
      have hv := v.isLt
      have hslt := slt_zero_iff v
      show v.toInt = if v.slt 0 then -((if v.slt 0 then v * -1 else v).toNat : Int)
        else (if v.slt 0 then v * -1 else v).toNat
      rw [BitVec.toInt_eq_toNat_cond]
      by_cases hneg : v.slt 0 = true
      · have hle := hslt.mp hneg
        rw [if_pos hneg, if_pos hneg, if_neg (show ¬ 2 * v.toNat < 2 ^ 64 by omega),
          toNat_mul_neg_one (by omega)]
        omega
      · have hlt := Nat.not_le.mp (mt hslt.mpr hneg)
        rw [if_neg hneg, if_neg hneg, if_pos hlt]
  | int v =>
      have hv := v.isLt
      have hslt := slt_zero_iff v
      have hne : Value.int v ≠ .int 0x80000000 ↔ v.toNat ≠ 2147483648 := by
        rw [ne_eq, Value.int.injEq, ← BitVec.toNat_inj]
        rfl
      rw [hne]
      show v.toInt = (if v.slt 0 then
        -(((if v.slt 0 then v * -1 else v).signExtend 64).toNat : Int)
        else ((if v.slt 0 then v * -1 else v).signExtend 64).toNat) ↔ _
      have hextend : ∀ u : BitVec 32, (u.signExtend 64).toNat =
          u.toNat + if 2 ^ 32 ≤ 2 * u.toNat then 2 ^ 64 - 2 ^ 32 else 0 := by
        intro u
        have hu := u.isLt
        rw [BitVec.toNat_signExtend, BitVec.toNat_setWidth, Nat.mod_eq_of_lt (by omega)]
        simp only [BitVec.msb_eq_true_iff_two_mul_ge, ge_iff_le]
      rw [BitVec.toInt_eq_toNat_cond, hextend]
      by_cases hneg : v.slt 0 = true
      · have hle := hslt.mp hneg
        rw [if_pos hneg, if_pos hneg, if_neg (show ¬ 2 * v.toNat < 2 ^ 32 by omega),
          toNat_mul_neg_one (by omega)]
        split <;> omega
      · have hlt := Nat.not_le.mp (mt hslt.mpr hneg)
        rw [if_neg hneg, if_neg hneg, if_pos hlt]
        split <;> omega

/-- In base 10 the text says the number unless it is the least `int`; in both bases it is in the buffer
with its 0. -/
theorem itoa_iff (junk : Char) (x : Value) {dst : Dest} (h : dst.Recorded) :
    ((∃ dst' t, x.itoa junk (some dst) 10 = some (true, some dst') ∧ dst'.text = some t ∧
        Denotes t x.toInt) ∧
      ∀ base, base = 10 ∨ base = 16 → ∃ dst' t,
        x.itoa junk (some dst) base = some (true, some dst') ∧ dst'.Recorded ∧
        dst'.text = some t ∧ t.length + 1 ≤ dst'.max.toNat) ↔
      x ≠ .int 0x80000000 := by
  have hfits : ∀ base, base = 10 ∨ base = 16 → ∃ dst' t,
      x.itoa junk (some dst) base = some (true, some dst') ∧ dst'.Recorded ∧
      dst'.text = some t ∧ t.length + 1 ≤ dst'.max.toNat := by
    intro base hbase
    obtain ⟨dst', hitoa, hrecorded, htext, hroom⟩ :=
      exists_itoaULong junk x.magnitude h hbase x.negative
    exact ⟨dst', _, (x.itoa_eq junk _ _).trans hitoa, hrecorded, htext, hroom⟩
  obtain ⟨dst', hitoa, -, htext, -⟩ :=
    exists_itoaULong junk x.magnitude h (Or.inl rfl) x.negative
  have hdenotes := denotes_digits x.negative x.magnitude.toNat
  rw [← x.toInt_eq_iff]
  constructor
  · rintro ⟨⟨dst'', t, hitoa', htext', hsays⟩, -⟩
    rw [x.itoa_eq, hitoa] at hitoa'
    cases hitoa'
    rw [htext] at htext'
    cases htext'
    exact hsays.unique hdenotes
  · intro heq
    rw [← heq] at hdenotes
    exact ⟨⟨dst', _, (x.itoa_eq junk _ _).trans hitoa, htext, hdenotes⟩, hfits⟩

/-- The least `long`, without a buffer. -/
theorem least_long_denoted : ∃ dst' t,
    Value.itoa ' ' (some {}) 10 (.long 0x8000000000000000) = some (true, some dst') ∧
      dst'.text = some t ∧ Denotes t (-9223372036854775808) :=
  ((@itoa_iff ' ' (.long 0x8000000000000000) {} rfl).mpr nofun).1

/-- The least `int` is extended with its sign. -/
theorem least_int_not_denoted : (Value.itoa ' ' (some {}) 10 (.int 0x80000000)).map
      (fun r => r.2.map Dest.text) = some (some (some "-18446744071562067968".toList)) ∧
    ¬ Denotes "-18446744071562067968".toList (Value.int 0x80000000).toInt := by
  refine ⟨by decide +kernel, fun h => ?_⟩
  have heq := h.unique (denotes_digits true 18446744071562067968)
  exact absurd heq (by decide)

end Vimgdb.Itoa
