import Vimgdb.Common.Itoa

/-!
# Writing a command to gdb

`gdbif::mi_issue_cmd` writes a command in pieces: the token, a dash, the command, and what the
format string makes of the arguments.

* `formatLoop`: the loop over the format string.
* `issueCmd`: all pieces of a command, in the order in which they are written.
* `formatLoop_literal`, `formatLoop_str`: what single parts of a format write.
* `atoi_itoa`: the token read back from its digits.
* `text_itoa`: the texts are those that `itoa` leaves in its buffer.
-/

namespace Vimgdb.Gdb

/-- The arguments behind the format string; an array of strings and its length are two arguments. -/
inductive Arg
  | int (v : BitVec 32)
  | uint (v : BitVec 32)
  | long (v : BitVec 64)
  | ulong (v : BitVec 64)
  | str (s : CStr)
  | strs (argv : List CStr)

/-- How the loop ends: behind the format, at an invalid specifier, or by reading an argument of the
wrong type, which is undefined. -/
inductive Status
  | ok | invalid | undefined
  deriving DecidableEq

/-- `itoa` of an unsigned value. -/
def itoa (base v : Nat) : CStr := Nat.toDigits base v

/-- `itoa` of a signed value: the sign, and the value without it as an unsigned `long`. -/
def itoaInt {w : Nat} (v : BitVec w) : CStr :=
  if v.slt 0 then '-' :: itoa 10 ((-v).signExtend 64).toNat else itoa 10 (v.signExtend 64).toNat

/-- The strings of an array with blanks between them, each in quotes if `quoted` is set. -/
def writeArray (quoted : Bool) (argv : List CStr) : List CStr :=
  (argv.map fun s => if quoted then [['"'], s, ['"']] else [s]).intersperse [[' ']] |>.flatten

/-- One piece is written, then the loop goes on. -/
def write (piece : CStr) (rest : List CStr × Status) : List CStr × Status :=
  (piece :: rest.1, rest.2)

/-- The loop over the format string: the pieces written, and how it ends. -/
def formatLoop : CStr → List Arg → List CStr × Status
  | [], _ => ([], .ok)
  | '%' :: 'l' :: 'd' :: fmt, .long v :: args => write (itoaInt v) (formatLoop fmt args)
  | '%' :: 'l' :: 'd' :: _, _ => ([], .undefined)
  | '%' :: 'l' :: 'u' :: fmt, .ulong v :: args => write (itoa 10 v.toNat) (formatLoop fmt args)
  | '%' :: 'l' :: 'u' :: _, _ => ([], .undefined)
  | '%' :: 'l' :: 'x' :: fmt, .ulong v :: args => write (itoa 16 v.toNat) (formatLoop fmt args)
  | '%' :: 'l' :: 'x' :: _, _ => ([], .undefined)
  | '%' :: 'd' :: fmt, .int v :: args => write (itoaInt v) (formatLoop fmt args)
  | '%' :: 'd' :: _, _ => ([], .undefined)
  | '%' :: 'u' :: fmt, .uint v :: args => write (itoa 10 v.toNat) (formatLoop fmt args)
  | '%' :: 'u' :: _, _ => ([], .undefined)
  | '%' :: 'x' :: fmt, .uint v :: args => write (itoa 16 v.toNat) (formatLoop fmt args)
  | '%' :: 'x' :: _, _ => ([], .undefined)
  | '%' :: 's' :: 's' :: ' ' :: '%' :: 'd' :: fmt, .strs argv :: .int argc :: args =>
      if argc.toNat ≤ argv.length then
        let rest := formatLoop fmt args
        (writeArray false (argv.take argc.toNat) ++ rest.1, rest.2)
      else ([], .undefined)
  | '%' :: 's' :: 's' :: ' ' :: '%' :: 'd' :: _, _ => ([], .undefined)
  | '%' :: 's' :: 's' :: 'q' :: ' ' :: '%' :: 'd' :: fmt, .strs argv :: .int argc :: args =>
      if argc.toNat ≤ argv.length then
        let rest := formatLoop fmt args
        (writeArray true (argv.take argc.toNat) ++ rest.1, rest.2)
      else ([], .undefined)
  | '%' :: 's' :: 's' :: 'q' :: ' ' :: '%' :: 'd' :: _, _ => ([], .undefined)
  | '%' :: 's' :: fmt, .str s :: args => write s (formatLoop fmt args)
  | '%' :: 's' :: _, _ => ([], .undefined)
  | '%' :: _, _ => ([], .invalid)
  | c :: fmt, args => write [c] (formatLoop fmt args)

/-- The pieces `mi_issue_cmd` writes for a command, and how the loop over the format ends.  The
newline is only written behind a valid format. -/
def issueCmd (token : BitVec 32) (cmd fmt : CStr) (args : List Arg) : List CStr × Status :=
  let r := formatLoop fmt args
  ([itoa 10 token.toNat, ['-'], cmd] ++ (if fmt = [] then [] else [[' ']]) ++ r.1 ++
    (if r.2 = .ok then [['\n']] else []), r.2)

/-! ## Parts of a format -/

/-- Any character but the percent sign is written as it is. -/
theorem formatLoop_char {c : Char} (hc : c ≠ '%') (fmt : CStr) (args : List Arg) :
    formatLoop (c :: fmt) args = write [c] (formatLoop fmt args) := by
  rw [formatLoop] <;> simp [hc]

/-- So is a text without percent signs. -/
theorem formatLoop_literal {w : CStr} (hw : '%' ∉ w) (fmt : CStr) (args : List Arg) :
    formatLoop (w ++ fmt) args =
      (w.map ([·]) ++ (formatLoop fmt args).1, (formatLoop fmt args).2) := by
  induction w with
  | nil => rfl
  | cons c w ih =>
      obtain ⟨hc, hw⟩ := not_or.mp (List.mem_cons.not.mp hw)
      rw [List.cons_append, formatLoop_char (Ne.symm hc), ih hw]
      rfl

/-- A string is written as it is, unless the format goes on as that of an array. -/
theorem formatLoop_str {fmt : CStr} (h : fmt.head? ≠ some 's') (s : CStr) (args : List Arg) :
    formatLoop ('%' :: 's' :: fmt) (.str s :: args) = write s (formatLoop fmt args) := by
  rw [formatLoop] <;> exact fun _ heq => h (by rw [heq]; rfl)

/-! ## Tokens -/

theorem digits_of_itoa (v : Nat) : ∀ c ∈ itoa 10 v, c.isDigit := fun _ hc =>
  Nat.isDigit_of_mem_toDigits (by decide) (by decide) hc

theorem isSpace_of_isDigit {c : Char} (hc : c.isDigit) : isSpace c = false := by
  by_contra h
  simp only [isSpace, List.mem_cons, List.not_mem_nil, or_false, decide_eq_true_eq,
    Bool.not_eq_false] at h
  rcases h with rfl | rfl | rfl | rfl | rfl | rfl <;> exact absurd hc (by decide)

theorem digitValue_digitChar : ∀ d < 10, digitValue 10 d.digitChar = some d := by decide

/-- The digits of a number are read as that number. -/
theorem readDigits_itoa (n : Nat) (s : CStr) :
    readDigits 10 0 (itoa 10 n ++ s) = readDigits 10 n s := by
  induction n using Nat.strongRecOn generalizing s with
  | ind n ih =>
      by_cases hn : n < 10
      · rw [itoa, Nat.toDigits_of_lt_base hn, List.singleton_append, readDigits,
          digitValue_digitChar n hn]
        simp only [Nat.zero_mul, Nat.zero_add]
      · have hlast : n % 10 < 10 := Nat.mod_lt n (by decide)
        rw [itoa, Nat.toDigits_of_base_le (by decide) (by omega), List.append_assoc,
          List.singleton_append, ← itoa, ih (n / 10) (by omega), readDigits,
          digitValue_digitChar _ hlast]
        simp only [Nat.div_add_mod' n 10]

/-- A token is read back from what is written for it. -/
theorem atoi_itoa (v : BitVec 32) : atoi (itoa 10 v.toNat) = v := by
  have hread : readDigits 10 0 (itoa 10 v.toNat) = v.toNat := by
    simpa [readDigits] using readDigits_itoa v.toNat []
  have hlt := v.isLt
  have hstrtol : strtol 10 (itoa 10 v.toNat) = v.toNat := by
    obtain ⟨c, s, hcons⟩ : ∃ c s, itoa 10 v.toNat = c :: s :=
      List.exists_cons_of_ne_nil Nat.toDigits_ne_nil
    have hc : c.isDigit := digits_of_itoa v.toNat c (by rw [hcons]; exact List.mem_cons_self)
    have hsign : c ≠ '-' ∧ c ≠ '+' := by
      constructor <;> rintro rfl <;> exact absurd hc (by decide)
    rw [hcons] at hread ⊢
    have hdrop : (c :: s).dropWhile isSpace = c :: s := by
      simp [isSpace_of_isDigit hc]
    have hval : strtol 10 (c :: s) = saturate (readDigits 10 0 (c :: s)) := by
      rw [strtol, hdrop]
      split
      · rename_i heq
        exact absurd (List.cons.inj heq).1 hsign.1
      · rename_i heq
        exact absurd (List.cons.inj heq).1 hsign.2
      · rfl
    rw [hval, hread, saturate]
    omega
  rw [atoi, hstrtol]
  exact BitVec.eq_of_toNat_eq (by simp)

/-- What is left in the buffer of `itoa` for an `int`, a `long` and an `unsigned int`. -/
theorem text_itoa (junk : Char) {dst : Itoa.Dest} (h : dst.Recorded) :
    (∀ v : BitVec 32, ∃ dst', Itoa.itoaInt junk v (some dst) 10 = some (true, some dst') ∧
      dst'.Recorded ∧ dst'.text = some (itoaInt v)) ∧
    (∀ v : BitVec 64, ∃ dst', Itoa.itoaLong junk v (some dst) 10 = some (true, some dst') ∧
      dst'.Recorded ∧ dst'.text = some (itoaInt v)) ∧
    ∀ v : BitVec 32, ∃ dst', Itoa.itoaUInt junk v (some dst) 10 false = some (true, some dst') ∧
      dst'.Recorded ∧ dst'.text = some (itoa 10 v.toNat) := by
  have hneg : ∀ {w : Nat} (v : BitVec w), v * -1 = -v := fun v =>
    (BitVec.mul_neg v 1).trans (congrArg _ (BitVec.mul_one v))
  have hsigned : ∀ {w : Nat} (v : BitVec w) (u : BitVec 64),
      u = (if v.slt 0 then v * -1 else v).signExtend 64 →
      Itoa.digits 10 (v.slt 0) u.toNat = itoaInt v := by
    rintro w v u rfl
    unfold Itoa.digits itoaInt itoa
    rw [hneg]
    cases v.slt 0 <;> rfl
  refine ⟨fun v => ?_, fun v => ?_, fun v => ?_⟩
  · obtain ⟨dst', hitoa, hrecorded, htext, -⟩ := Itoa.exists_itoaULong junk
      ((if v.slt 0 then v * -1 else v).signExtend 64) h (Or.inl rfl) (v.slt 0)
    exact ⟨dst', hitoa, hrecorded, htext.trans (congrArg some (hsigned v _ rfl))⟩
  · obtain ⟨dst', hitoa, hrecorded, htext, -⟩ := Itoa.exists_itoaULong junk
      (if v.slt 0 then v * -1 else v) h (Or.inl rfl) (v.slt 0)
    exact ⟨dst', hitoa, hrecorded,
      htext.trans (congrArg some (hsigned v _ (BitVec.signExtend_eq _).symm))⟩
  · obtain ⟨dst', hitoa, hrecorded, htext, -⟩ :=
      Itoa.exists_itoaULong junk (v.zeroExtend 64) h (Or.inl rfl) false
    have hv : (v.zeroExtend 64).toNat = v.toNat := by
      rw [BitVec.toNat_setWidth]
      exact Nat.mod_eq_of_lt (Nat.lt_trans v.isLt (by decide))
    refine ⟨dst', hitoa, hrecorded, htext.trans ?_⟩
    rw [hv]
    rfl

end Vimgdb.Gdb
