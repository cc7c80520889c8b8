import Vimgdb.Common.Numbers

/-!
# Formatted text

`vsnprintf` of the C library, for the conversions the source uses.  Nothing, `none`, is what it comes
to when it is undefined: a conversion without an argument of its type, or no conversion at all.

* `Arg`, `Spec`: the arguments, and what has been read of a conversion.
* `scan`: the loop over the format.
* `vsnprintf`: the text that is made.
* `vsnprintf_eq_self_iff`: the texts that are themselves when they are the format.
* `cut`, `hexDigits`: conversions with a precision that is an argument.
* `count_vsnprintf`: arguments without line breaks add none to those of the format;
  `le_count_vsnprintf` for all arguments.
-/

namespace Vimgdb.Printf

/-- The arguments behind a format. -/
inductive Arg
  | int (v : BitVec 32)
  | long (v : BitVec 64)
  | chr (c : Char)
  | str (s : CStr)
  deriving DecidableEq, Repr

/-- What has been read of a conversion. -/
structure Spec where
  alternate : Bool := false
  zero : Bool := false
  left : Bool := false
  width : Option Nat := none
  precision : Option Nat := none
  long : Bool := false
  /-- Something stands behind the percent sign. -/
  started : Bool := false

/-! ## Conversions -/

/-- The text is filled up to the width, with zeros between the sign and the digits of a number. -/
def Spec.fill (spec : Spec) (sign body : CStr) (number : Bool) : CStr :=
  let n := spec.width.getD 0 - (sign.length + body.length)
  if spec.left then sign ++ body ++ List.replicate n ' '
  else if number && spec.zero && spec.precision.isNone then sign ++ List.replicate n '0' ++ body
  else List.replicate n ' ' ++ sign ++ body

/-- The digits of a number; with a precision of 0 there are none of 0. -/
def Spec.digits (spec : Spec) (base n : Nat) : CStr :=
  if spec.precision = some 0 ∧ n = 0 then [] else Nat.toDigits base n

/-- A number has at least as many digits as the precision says. -/
def Spec.number (spec : Spec) (sign digits : CStr) : CStr :=
  spec.fill sign (List.replicate (spec.precision.getD 0 - digits.length) '0' ++ digits) true

/-- A signed number. -/
def Spec.signed (spec : Spec) (v : Int) : CStr :=
  spec.number (if v < 0 then ['-'] else []) (spec.digits 10 v.natAbs)

/-- An unsigned number in base 16; zero has no marker. -/
def Spec.hex (spec : Spec) (v : Nat) : CStr :=
  spec.number (if spec.alternate ∧ v ≠ 0 then ['0', 'x'] else []) (spec.digits 16 v)

/-- The conversion of an argument. -/
def Spec.convert (spec : Spec) (c : Char) (arg : Arg) : Option CStr :=
  match arg with
  | .int v =>
      if spec.long then none
      else if c = 'd' then some (spec.signed v.toInt)
      else if c = 'u' then some (spec.signed v.toNat)
      else if c = 'x' then some (spec.hex v.toNat)
      else none
  | .long v =>
      if !spec.long then none
      else if c = 'd' then some (spec.signed v.toInt)
      else if c = 'u' then some (spec.signed v.toNat)
      else if c = 'x' then some (spec.hex v.toNat)
      else none
  | .chr d => if c = 'c' then some (spec.fill [] [d] false) else none
  | .str s =>
      if c = 's' then
        let s := scanned s
        some (spec.fill [] (s.take (spec.precision.getD s.length)) false)
      else none

/-- A number for the width, or behind a point for the precision. -/
def Spec.setStar (spec : Spec) (v : Int) : Spec :=
  match spec.precision with
  | some _ => { spec with precision := if v < 0 then none else some v.toNat }
  | none => { spec with left := spec.left || v < 0, width := some v.natAbs }

/-- One more digit of the width or of the precision. -/
def Spec.addDigit (spec : Spec) (d : Nat) : Spec :=
  match spec.precision with
  | some n => { spec with precision := some (n * 10 + d) }
  | none => { spec with width := some (spec.width.getD 0 * 10 + d) }

/-- A character of a conversion in front of the letter that ends it. -/
def Spec.modify (spec : Spec) (c : Char) (args : List Arg) : Option (Spec × List Arg) :=
  let spec := { spec with started := true }
  if c = '#' then some ({ spec with alternate := true }, args)
  else if c = '-' then some ({ spec with left := true }, args)
  else if c = 'l' then some ({ spec with long := true }, args)
  else if c = '.' then some ({ spec with precision := some 0 }, args)
  else if c = '*' then
    match args with
    | .int v :: args => some (spec.setStar v.toInt, args)
    | _ => none
  else if c = '0' ∧ spec.width = none ∧ spec.precision = none then
    some ({ spec with zero := true }, args)
  else if c.isDigit then some (spec.addDigit (c.toNat - '0'.toNat), args)
  else none

/-! ## The loop -/

/-- The rest of a format, behind a percent sign with what has been read since, or outside of a
conversion. -/
def scan : Option Spec → CStr → List Arg → Option CStr
  | none, [], _ => some []
  | none, c :: fmt, args =>
      if c = '%' then scan (some {}) fmt args else (scan none fmt args).map (c :: ·)
  | some _, [], _ => none
  | some spec, c :: fmt, args =>
      if c = '%' then if spec.started then none else (scan none fmt args).map ('%' :: ·)
      else
        match spec.modify c args with
        | some (spec, args) => scan (some spec) fmt args
        | none =>
            match args with
            | [] => none
            | arg :: args => do return (← spec.convert c arg) ++ (← scan none fmt args)

/-- `vsnprintf`, into a buffer that is long enough. -/
def vsnprintf (fmt : CStr) (args : List Arg) : Option CStr := scan none (scanned fmt) args

example : vsnprintf "%s:%d".toList [.str "main.c".toList, .int 7] = some "main.c:7".toList := by
  decide

example : vsnprintf " %#0*lx%2.2s".toList [.int 10, .long 0x4000, .str "4142".toList] =
    some " 0x0000400041".toList := by decide

/-! ## A text as its own format -/

/-- What is read of a conversion is remembered. -/
theorem Spec.started_of_modify {spec spec' : Spec} {c : Char} {args args' : List Arg}
    (h : spec.modify c args = some (spec', args')) : spec'.started = true := by
  have hstar : ∀ (s : Spec) (v : Int), s.started = true → (s.setStar v).started = true := by
    intro s v hs
    unfold Spec.setStar
    split <;> exact hs
  have hdigit : ∀ (s : Spec) (d : Nat), s.started = true → (s.addDigit d).started = true := by
    intro s d hs
    unfold Spec.addDigit
    split <;> exact hs
  unfold Spec.modify at h
  dsimp only at h
  split_ifs at h
  case pos => cases h; rfl
  case pos => cases h; rfl
  case pos => cases h; rfl
  case pos => cases h; rfl
  case pos =>
    split at h
    · cases h
      exact hstar _ _ rfl
    · cases h
  case pos => cases h; rfl
  case pos =>
    cases h
    exact hdigit _ _ rfl

theorem Spec.args_of_modify {spec spec' : Spec} {c : Char} {args' : List Arg}
    (h : spec.modify c [] = some (spec', args')) : args' = [] := by
  unfold Spec.modify at h
  dsimp only at h
  split_ifs at h <;> cases h <;> rfl

/-- Without arguments, a conversion that has begun is undefined. -/
theorem scan_started {spec : Spec} (h : spec.started = true) (fmt : CStr) :
    scan (some spec) fmt [] = none := by
  induction fmt generalizing spec with
  | nil => rfl
  | cons c fmt ih =>
      rw [scan, h]
      split
      · rfl
      · split
        · next spec' args' hmod =>
          obtain rfl := Spec.args_of_modify hmod
          exact ih (Spec.started_of_modify hmod)
        · rfl

/-- Without arguments, only a second percent sign may follow one. -/
theorem scan_percent (fmt : CStr) :
    scan none ('%' :: fmt) [] =
      if fmt.head? = some '%' then (scan none fmt.tail []).map ('%' :: ·) else none := by
  rw [scan, if_pos rfl]
  cases fmt with
  | nil => rfl
  | cons c fmt =>
      rw [scan, List.head?_cons, List.tail_cons]
      by_cases hc : c = '%'
      · subst hc
        rfl
      · rw [if_neg hc, if_neg fun heq => hc (Option.some.inj heq)]
        split
        · next spec' args' hmod =>
          obtain rfl := Spec.args_of_modify hmod
          exact scan_started (Spec.started_of_modify hmod) fmt
        · rfl

theorem scan_cons {c : Char} (h : c ≠ '%') (fmt : CStr) (args : List Arg) :
    scan none (c :: fmt) args = (scan none fmt args).map (c :: ·) := by
  rw [scan, if_neg h]

/-- Without arguments, a text gets no longer, and shorter if it has a percent sign. -/
theorem length_of_scan {fmt text : CStr} (h : scan none fmt [] = some text) :
    text.length ≤ fmt.length ∧ ('%' ∈ fmt → text.length < fmt.length) := by
  match fmt with
  | [] =>
      cases h
      exact ⟨Nat.le_refl _, fun hmem => absurd hmem List.not_mem_nil⟩
  | c :: fmt =>
      by_cases hc : c = '%'
      · subst hc
        rw [scan_percent] at h
        split at h
        · obtain ⟨t, ht, rfl⟩ := Option.map_eq_some_iff.mp h
          obtain ⟨hle, -⟩ := length_of_scan ht
          rw [List.length_tail] at hle
          have hpos : 0 < fmt.length := by
            cases fmt with
            | nil => contradiction
            | cons d fmt => exact Nat.succ_pos _
          simp only [List.length_cons]
          omega
        · cases h
      · rw [scan_cons hc] at h
        obtain ⟨t, ht, rfl⟩ := Option.map_eq_some_iff.mp h
        obtain ⟨hle, hlt⟩ := length_of_scan ht
        simp only [List.length_cons]
        refine ⟨by omega, fun hmem => ?_⟩
        have := hlt ((List.mem_cons.mp hmem).resolve_left (Ne.symm hc))
        omega
termination_by fmt.length
decreasing_by
  all_goals simp only [List.length_tail, List.length_cons]; omega

theorem scan_of_notMem {fmt : CStr} (h : '%' ∉ fmt) (args : List Arg) :
    scan none fmt args = some fmt := by
  induction fmt with
  | nil => rfl
  | cons c fmt ih =>
      rw [List.mem_cons, not_or] at h
      rw [scan_cons (Ne.symm h.1), ih h.2]
      rfl

theorem length_scanned_le (s : CStr) : (scanned s).length ≤ s.length :=
  (List.takeWhile_sublist _).length_le

/-- A text ends at a 0. -/
theorem scanned_eq_self_iff (s : CStr) : scanned s = s ↔ '\x00' ∉ s := by
  constructor
  · intro h
    rw [← h]
    exact notMem_scanned s
  · exact scanned_of_notMem

theorem length_scanned_lt {s : CStr} (h : '\x00' ∈ s) : (scanned s).length < s.length := by
  apply Nat.lt_of_le_of_ne (length_scanned_le s)
  intro heq
  have hself := (List.takeWhile_prefix (· ≠ '\x00')).eq_of_length heq
  exact (scanned_eq_self_iff s).mp hself h

/-- Without arguments, what is made of a text is no longer, and as long only if it is the text. -/
theorem length_of_vsnprintf {fmt text : CStr} (h : vsnprintf fmt [] = some text) :
    text.length ≤ fmt.length ∧ ('\x00' ∈ fmt ∨ '%' ∈ fmt → text.length < fmt.length) := by
  obtain ⟨hle, hlt⟩ := length_of_scan h
  have hscanned := length_scanned_le fmt
  refine ⟨by omega, ?_⟩
  by_cases hnul : '\x00' ∈ fmt
  · have := length_scanned_lt hnul
    omega
  · rintro (hmem | hmem)
    · exact absurd hmem hnul
    · rw [scanned_of_notMem hnul] at hlt hle
      exact hlt hmem

/-- A text is itself as a format if and only if it has neither a percent sign nor a 0. -/
theorem vsnprintf_eq_self_iff (fmt : CStr) :
    vsnprintf fmt [] = some fmt ↔ '\x00' ∉ fmt ∧ '%' ∉ fmt := by
  constructor
  · intro h
    obtain ⟨-, hlt⟩ := length_of_vsnprintf h
    constructor
    · exact fun hmem => Nat.lt_irrefl _ (hlt (Or.inl hmem))
    · exact fun hmem => Nat.lt_irrefl _ (hlt (Or.inr hmem))
  · rintro ⟨hnul, hmem⟩
    unfold vsnprintf
    rw [scanned_of_notMem hnul, scan_of_notMem hmem]

/-- A text behind the format `%s`. -/
theorem vsnprintf_string (s : CStr) : vsnprintf "%s".toList [.str s] = some (scanned s) := by
  have hfill : Spec.convert {} 's' (.str s) = some (scanned s) := by
    simp [Spec.convert, Spec.fill]
  have hscan : vsnprintf "%s".toList [.str s] = (Spec.convert {} 's' (.str s)).bind fun t =>
      some (t ++ []) := rfl
  rw [hscan, hfill, Option.bind_some, List.append_nil]

/-! ## Conversions in full -/

/-- What `%.*s` makes of a text. -/
def cut (precision : BitVec 32) (s : CStr) : CStr :=
  if precision.toInt < 0 then scanned s else (scanned s).take precision.toInt.toNat

/-- What `%.*lx` makes of a number. -/
def hexDigits (precision : BitVec 32) (v : BitVec 64) : CStr :=
  Spec.hex { Spec.setStar { precision := some 0, started := true } precision.toInt with
    long := true, started := true } v.toNat

theorem convert_string (started : Bool) (s : CStr) :
    Spec.convert { started } 's' (.str s) = some (scanned s) := by
  simp [Spec.convert, Spec.fill]

theorem convert_char (c : Char) : Spec.convert {} 'c' (.chr c) = some [c] := by
  simp [Spec.convert, Spec.fill]

theorem convert_cut (precision : BitVec 32) (s : CStr) :
    Spec.convert (Spec.setStar { precision := some 0, started := true } precision.toInt) 's'
      (.str s) = some (cut precision s) := by
  unfold Spec.setStar cut
  dsimp only
  split <;> simp [Spec.convert, Spec.fill]

theorem convert_hexDigits (precision : BitVec 32) (v : BitVec 64) :
    Spec.convert { Spec.setStar { precision := some 0, started := true } precision.toInt with
      long := true, started := true } 'x' (.long v) = some (hexDigits precision v) := rfl

/-- Zeros, and the digits of the number. -/
theorem hexDigits_eq (precision : BitVec 32) (v : BitVec 64) : ∃ n,
    hexDigits precision v = List.replicate n '0' ++ Nat.toDigits 16 v.toNat ∨
      v = 0 ∧ hexDigits precision v = [] := by
  have hstar : ∀ i : Int, Spec.setStar { precision := some 0, started := true } i =
      { precision := if i < 0 then none else some i.toNat, started := true } := fun _ => rfl
  unfold hexDigits
  rw [hstar]
  generalize (if precision.toInt < 0 then none else some precision.toInt.toNat) = q
  unfold Spec.hex Spec.number Spec.fill Spec.digits
  by_cases hnone : q = some 0 ∧ v.toNat = 0
  · obtain ⟨rfl, hzero⟩ := hnone
    refine ⟨0, Or.inr ⟨BitVec.eq_of_toNat_eq hzero, ?_⟩⟩
    rw [hzero]
    rfl
  · refine ⟨q.getD 0 - (Nat.toDigits 16 v.toNat).length, Or.inl ?_⟩
    dsimp only
    rw [if_neg hnone]
    simp

/-- There are digits alone. -/
theorem isSome_of_mem_hexDigits {precision : BitVec 32} {v : BitVec 64} {c : Char}
    (hc : c ∈ hexDigits precision v) : (digitValue 16 c).isSome := by
  obtain ⟨n, heq | ⟨-, heq⟩⟩ := hexDigits_eq precision v
  · rw [heq] at hc
    rcases List.mem_append.mp hc with hc | hc
    · rw [List.eq_of_mem_replicate hc]
      decide
    · exact (readDigits_toDigits (by decide) (by decide) _).1 c hc
  · rw [heq] at hc
    cases hc

/-- A number is read back. -/
theorem readDigits_hexDigits (precision : BitVec 32) (v : BitVec 64) :
    readDigits 16 0 (hexDigits precision v) = v.toNat := by
  obtain ⟨n, heq | ⟨rfl, heq⟩⟩ := hexDigits_eq precision v
  · rw [heq, readDigits_zeros, (readDigits_toDigits (by decide) (by decide) v.toNat).2]
  · rw [heq]
    rfl

theorem cut_of_lt {precision : BitVec 32} {s t : CStr} (h : precision.toNat < 2 ^ 31)
    (hs : '\x00' ∉ s) (hlen : s.length = precision.toNat) : cut precision (s ++ t) = s := by
  have hint : precision.toInt = precision.toNat := BitVec.toInt_eq_toNat_of_lt (by omega)
  have hnonneg : ¬ ((precision.toNat : Int) < 0) := by omega
  unfold cut
  rw [hint, if_neg hnonneg, Int.toNat_natCast, scanned_append hs, ← hlen, List.take_left]

/-- A negative precision is as none. -/
theorem length_cut {precision : BitVec 32} {s t : CStr} (h : 2 ^ 31 ≤ precision.toNat)
    (hs : '\x00' ∉ s) : s.length ≤ (cut precision (s ++ t)).length := by
  have hint : precision.toInt < 0 := by
    rw [BitVec.toInt_eq_toNat_bmod, Int.bmod_def]
    have hlt := precision.isLt
    omega
  unfold cut
  rw [if_pos hint, scanned_append hs, List.length_append]
  omega

/-! ## Line breaks -/

/-- The argument has no line break. -/
def Arg.OneLine : Arg → Prop
  | .str s => '\n' ∉ s
  | .chr c => c ≠ '\n'
  | _ => True

theorem newline_notMem_toDigits {base : Nat} (hbase : 1 < base) (n : Nat) :
    '\n' ∉ Nat.toDigits base n := by
  have hdigit : ∀ d : Nat, '\n' ≠ d.digitChar := by
    have hsmall : ∀ d < 16, '\n' ≠ Nat.digitChar d := by decide
    intro d
    rcases Nat.lt_or_ge d 16 with hd | hd
    · exact hsmall d hd
    · rw [Nat.digitChar_eq_star.mpr hd]
      decide
  induction n using Nat.strongRecOn with
  | ind n ih =>
      rw [Nat.toDigits_eq_if hbase]
      split
      · exact List.mem_singleton.not.mpr (hdigit n)
      · next hle =>
        rw [List.mem_append, List.mem_singleton, not_or]
        exact ⟨ih _ (Nat.div_lt_self (by omega) hbase), hdigit _⟩

theorem newline_notMem_fill {spec : Spec} {sign body : CStr} {number : Bool} (hsign : '\n' ∉ sign)
    (hbody : '\n' ∉ body) : '\n' ∉ spec.fill sign body number := by
  have hpad : ∀ n (c : Char), c ≠ '\n' → '\n' ∉ List.replicate n c := fun n c hc hmem =>
    hc (List.eq_of_mem_replicate hmem).symm
  unfold Spec.fill
  dsimp only
  split_ifs <;> simp only [List.mem_append, not_or]
  · exact ⟨⟨hsign, hbody⟩, hpad _ _ (by decide)⟩
  · exact ⟨⟨hsign, hpad _ _ (by decide)⟩, hbody⟩
  · exact ⟨⟨hpad _ _ (by decide), hsign⟩, hbody⟩

theorem newline_notMem_number {spec : Spec} {sign : CStr} {base : Nat} (hbase : 1 < base)
    (hsign : '\n' ∉ sign) (n : Nat) : '\n' ∉ spec.number sign (spec.digits base n) := by
  refine newline_notMem_fill hsign fun hmem => ?_
  rcases List.mem_append.mp hmem with hmem | hmem
  · exact absurd (List.eq_of_mem_replicate hmem) (by decide)
  · unfold Spec.digits at hmem
    split at hmem
    · cases hmem
    · exact newline_notMem_toDigits hbase n hmem

theorem newline_notMem_signed (spec : Spec) (v : Int) : '\n' ∉ spec.signed v :=
  newline_notMem_number (by decide) (by split <;> decide) _

theorem newline_notMem_hex (spec : Spec) (v : Nat) : '\n' ∉ spec.hex v :=
  newline_notMem_number (by decide) (by split <;> decide) _

/-- A conversion ends in a letter. -/
theorem Spec.ne_of_convert {spec : Spec} {c : Char} {arg : Arg} {t : CStr}
    (h : spec.convert c arg = some t) : c ≠ '\n' := by
  rintro rfl
  unfold Spec.convert at h
  split at h <;> simp at h

/-- What may stand in front of that letter is no line break either. -/
theorem Spec.ne_of_modify {spec spec' : Spec} {c : Char} {args args' : List Arg}
    (h : spec.modify c args = some (spec', args')) : c ≠ '\n' := by
  rintro rfl
  unfold Spec.modify at h
  simp at h

/-- A conversion makes no line breaks. -/
theorem Spec.convert_oneLine {spec : Spec} {c : Char} {arg : Arg} {t : CStr} (harg : arg.OneLine)
    (h : spec.convert c arg = some t) : '\n' ∉ t := by
  unfold Spec.convert at h
  split at h
  · split_ifs at h <;> cases h
    · exact newline_notMem_signed _ _
    · exact newline_notMem_signed _ _
    · exact newline_notMem_hex _ _
  · split_ifs at h <;> cases h
    · exact newline_notMem_signed _ _
    · exact newline_notMem_signed _ _
    · exact newline_notMem_hex _ _
  · split_ifs at h
    cases h
    exact newline_notMem_fill List.not_mem_nil (List.mem_singleton.not.mpr (Ne.symm harg))
  · split_ifs at h
    cases h
    refine newline_notMem_fill List.not_mem_nil fun hmem => ?_
    exact harg ((List.takeWhile_sublist _).subset (List.mem_of_mem_take hmem))

/-- What stands in front of the letter takes arguments only. -/
theorem Spec.modify_oneLine {spec spec' : Spec} {c : Char} {args args' : List Arg}
    (hargs : ∀ a ∈ args, a.OneLine) (h : spec.modify c args = some (spec', args')) :
    ∀ a ∈ args', a.OneLine := by
  unfold Spec.modify at h
  dsimp only at h
  split_ifs at h
  case pos => cases h; exact hargs
  case pos => cases h; exact hargs
  case pos => cases h; exact hargs
  case pos => cases h; exact hargs
  case pos =>
    split at h
    · cases h
      exact fun a ha => hargs a (List.mem_cons_of_mem _ ha)
    · cases h
  case pos => cases h; exact hargs
  case pos => cases h; exact hargs

theorem count_scan {spec : Option Spec} {fmt text : CStr} {args : List Arg}
    (hargs : ∀ a ∈ args, a.OneLine) (h : scan spec fmt args = some text) :
    text.count '\n' = fmt.count '\n' := by
  induction fmt generalizing spec args text with
  | nil =>
      cases spec with
      | none =>
          cases h
          rfl
      | some spec => cases h
  | cons c fmt ih =>
      cases spec with
      | none =>
          rw [scan] at h
          split at h
          · next hc =>
            rw [ih hargs h, hc, List.count_cons_of_ne (by decide)]
          · obtain ⟨t, ht, rfl⟩ := Option.map_eq_some_iff.mp h
            rw [List.count_cons, List.count_cons, ih hargs ht]
      | some spec =>
          rw [scan.eq_def] at h
          dsimp only at h
          split at h
          · next hc =>
            split at h
            · cases h
            · obtain ⟨t, ht, rfl⟩ := Option.map_eq_some_iff.mp h
              rw [hc, List.count_cons, List.count_cons, ih hargs ht]
          · split at h
            · next spec' args' hmod =>
              rw [ih (Spec.modify_oneLine hargs hmod) h, List.count_cons_of_ne (Spec.ne_of_modify hmod)]
            · cases args with
              | nil => cases h
              | cons arg args =>
                  simp only [Option.bind_eq_bind, Option.bind_eq_some_iff] at h
                  obtain ⟨t, hconv, u, hscan, heq⟩ := h
                  cases heq
                  have ht := Spec.convert_oneLine (hargs arg List.mem_cons_self) hconv
                  rw [List.count_append, List.count_eq_zero_of_not_mem ht, Nat.zero_add,
                    ih (fun a ha => hargs a (List.mem_cons_of_mem _ ha)) hscan,
                    List.count_cons_of_ne (Spec.ne_of_convert hconv)]

/-- Arguments without line breaks add none to those of the format. -/
theorem count_vsnprintf {fmt text : CStr} {args : List Arg} (hargs : ∀ a ∈ args, a.OneLine)
    (h : vsnprintf fmt args = some text) : text.count '\n' = (scanned fmt).count '\n' :=
  count_scan hargs h

theorem le_count_scan {spec : Option Spec} {fmt text : CStr} {args : List Arg}
    (h : scan spec fmt args = some text) : fmt.count '\n' ≤ text.count '\n' := by
  induction fmt generalizing spec args text with
  | nil => exact Nat.zero_le _
  | cons c fmt ih =>
      cases spec with
      | none =>
          rw [scan] at h
          split at h
          · next hc =>
            rw [hc, List.count_cons_of_ne (by decide)]
            exact ih h
          · obtain ⟨t, ht, rfl⟩ := Option.map_eq_some_iff.mp h
            rw [List.count_cons, List.count_cons]
            exact Nat.add_le_add_right (ih ht) _
      | some spec =>
          rw [scan.eq_def] at h
          dsimp only at h
          split at h
          · next hc =>
            split at h
            · cases h
            · obtain ⟨t, ht, rfl⟩ := Option.map_eq_some_iff.mp h
              rw [hc, List.count_cons, List.count_cons]
              exact Nat.add_le_add_right (ih ht) _
          · split at h
            · next spec' args' hmod =>
              rw [List.count_cons_of_ne (Spec.ne_of_modify hmod)]
              exact ih h
            · cases args with
              | nil => cases h
              | cons arg args =>
                  simp only [Option.bind_eq_bind, Option.bind_eq_some_iff] at h
                  obtain ⟨t, hconv, u, hscan, heq⟩ := h
                  cases heq
                  rw [List.count_cons_of_ne (Spec.ne_of_convert hconv), List.count_append]
                  exact Nat.le_add_left_of_le (ih hscan)

/-- The line breaks of the format are part of the text. -/
theorem le_count_vsnprintf {fmt text : CStr} {args : List Arg} (h : vsnprintf fmt args = some text) :
    (scanned fmt).count '\n' ≤ text.count '\n' := le_count_scan h

end Vimgdb.Printf
