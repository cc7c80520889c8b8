import Mathlib.Data.List.Induction
import Vimgdb.Common.HexText
import Vimgdb.Gdb.Issue
import Vimgdb.Lib.Buffer

/-!
# The digits that are written to memory

`gdb_memory_t::set` with the accesses to the value and to the buffer for its digits.

* `ctohexstr`, `encodeLoop`, `digitsOf`, `setCmd`: the function, up to the command it writes.
* `encodeLoop_eq`, `encodeLoop_eq_none`: the loop over a string.
* `digitsOf_string` .. `digitsOf_marked`: what is sent for each kind of value.
* `setCmd_eq`: the command.
-/

namespace Vimgdb.MemorySet

open Buffers Gdb

/-! ## The function -/

/-- A digit of `CTOHEXSTR`. -/
def ctohex (v : Int) : Char := Char.ofNat (v + if 9 < v then 87 else 48).toNat

/-- `CTOHEXSTR`; characters are signed, and so are the quotient and the rest. -/
def ctohexstr (c : Char) : CStr :=
  let v : Int := if c.toNat < 128 then c.toNat else (c.toNat : Int) - 256
  [ctohex (v.tdiv 16), ctohex (v.tmod 16)]

/-- Two digits are written; an index in front of the buffer is outside of it. -/
def writeDigits (p : CStr) (i : Int) (c : Char) : Option CStr :=
  if i < 0 then none else store p i.toNat (ctohexstr c)

/-- The loop over a string between quotes, from the last byte on. -/
def encodeLoop (value : CStr) : Nat → CStr → Option CStr
  | 0, p => some p
  | len + 1, p => do
      let c ← read value (len + 1)
      let p ← writeDigits p (((BitVec.ofNat 32 (len + 1) * 2).toNat : Int) - 2) c
      encodeLoop value len p

/-- The digits that are sent for a value, or none if it is rejected.  An access outside of the value with
its 0 or of the buffer has no result; `junk` is what new memory contains. -/
def digitsOf (junk : Char) (text : CStr) : Option (Option CStr) := do
  let value := text ++ ['\x00']
  let c ← read value 0
  if c = '"' then
    let len := BitVec.ofNat 32 text.length
    let last ← read value (len - 1).toNat
    if last = '"' then
      let len := len - 2
      let p ← write (List.replicate (len * 2 + 1).toNat junk) (len * 2).toNat '\x00'
      let p ← encodeLoop value len.toNat p
      return some (← Buffers.text '\x00' p)
    else return none
  else if c = '\'' then
    -- the digits are written over the quote and the character
    let value ← writeDigits value 0 (← read value 1)
    let value ← write value 2 '\x00'
    return some (← Buffers.text '\x00' value)
  else if c = '0' ∧ read value 1 = some 'x' then
    return some (text.drop 2)
  else return some text

/-- `set`: the pieces of the command, or none if the value is rejected. -/
def setCmd (junk : Char) (token cnt : BitVec 32) (addr : BitVec 64) (text : CStr) :
    Option (Option (List CStr × Status)) :=
  (digitsOf junk text).map fun r => r.map fun digits =>
    if cnt ≠ 0 then
      issueCmd token "data-write-memory-bytes".toList "0x%lx %s %u".toList
        [.ulong addr, .str digits, .uint cnt]
    else
      issueCmd token "data-write-memory-bytes".toList "0x%lx %s".toList [.ulong addr, .str digits]

/-! ## Digits -/

/-- The characters of bytes. -/
def chars (bs : List UInt8) : CStr := bs.map fun b => Char.ofNat b.toNat

/-- The encoding of a character is that of its byte if and only if its top bit is not set. -/
theorem ctohexstr_eq_iff (b : UInt8) : ctohexstr (Char.ofNat b.toNat) = hexByte b ↔ b < 128 := by
  have hall : ∀ v < 256, (ctohexstr (Char.ofNat v) = [hexDigit (v / 16), hexDigit (v % 16)] ↔ v < 128) := by
    decide +kernel
  rw [UInt8.lt_iff_toNat_lt]
  exact hall b.toNat b.toNat_lt

theorem nul_notMem_ctohexstr (b : UInt8) : '\x00' ∉ ctohexstr (Char.ofNat b.toNat) := by
  have hall : ∀ v < 256, '\x00' ∉ ctohexstr (Char.ofNat v) := by decide +kernel
  exact hall b.toNat b.toNat_lt

theorem char_inj {a b : UInt8} (h : Char.ofNat a.toNat = Char.ofNat b.toNat) : a = b := by
  have hall : ∀ v < 256, (Char.ofNat v).toNat = v := by decide +kernel
  have hnat := congrArg Char.toNat h
  rw [hall a.toNat a.toNat_lt, hall b.toNat b.toNat_lt] at hnat
  exact UInt8.toNat_inj.mp hnat

/-- Encoding the bytes gives their digits if and only if no top bit is set. -/
theorem flatMap_ctohexstr_eq_iff (bs : List UInt8) :
    (chars bs).flatMap ctohexstr = hexText bs ↔ ∀ b ∈ bs, b < 128 := by
  induction bs with
  | nil => exact iff_of_true rfl nofun
  | cons b bs ih =>
      have hleft : (chars (b :: bs)).flatMap ctohexstr =
          ctohexstr (Char.ofNat b.toNat) ++ (chars bs).flatMap ctohexstr := rfl
      have hright : hexText (b :: bs) = hexByte b ++ hexText bs := rfl
      rw [hleft, hright, List.forall_mem_cons, ← ih, ← ctohexstr_eq_iff]
      constructor
      · intro h
        exact List.append_inj h rfl
      · rintro ⟨hb, hbs⟩
        rw [hb, hbs]

/-! ## The loop -/

variable {junk : Char} {s t p value : CStr}

theorem length_flatMap_ctohexstr (s : CStr) : (s.flatMap ctohexstr).length = 2 * s.length := by
  induction s with
  | nil => rfl
  | cons c s ih =>
      rw [List.flatMap_cons, List.length_append, ih, List.length_cons]
      have hlen : (ctohexstr c).length = 2 := rfl
      omega

/-- The last of some characters is encoded behind the place of the others. -/
theorem writeDigits_append {pre rest : CStr} {a b c : Char} {n : Nat} (hpre : pre.length = 2 * n)
    (hn : n + 1 < 2 ^ 31) :
    writeDigits (pre ++ a :: b :: rest) (((BitVec.ofNat 32 (n + 1) * 2).toNat : Int) - 2) c =
      some (pre ++ (ctohexstr c ++ rest)) := by
  have hdouble : (BitVec.ofNat 32 (n + 1) * 2).toNat = 2 * n + 2 := by
    rw [BitVec.toNat_mul, BitVec.toNat_ofNat]
    show (n + 1) % 2 ^ 32 * 2 % 2 ^ 32 = _
    omega
  have hindex : ((2 * n + 2 : Nat) : Int) - 2 = ((2 * n : Nat) : Int) := by omega
  have hstore := @store_append Char pre [a, b] rest (ctohexstr c) _ hpre.symm rfl
  rw [List.append_assoc, List.append_assoc] at hstore
  unfold writeDigits
  rw [hdouble, hindex, if_neg (by omega), Int.toNat_natCast]
  exact hstore

/-- The loop encodes the string. -/
theorem encodeLoop_eq {c : Char} {pre rest : CStr} (hs : s.length < 2 ^ 31)
    (hpre : pre.length = 2 * s.length) :
    encodeLoop (c :: s ++ t) s.length (pre ++ rest) = some (s.flatMap ctohexstr ++ rest) := by
  induction s using List.reverseRecOn generalizing t pre rest with
  | nil =>
      obtain rfl := List.eq_nil_of_length_eq_zero hpre
      rfl
  | append_singleton s d ih =>
      have hlength : (s ++ [d]).length = s.length + 1 := List.length_append
      rw [hlength] at hs hpre
      have hread : read (c :: (s ++ [d]) ++ t) (s.length + 1) = some d := by
        rw [show c :: (s ++ [d]) ++ t = (c :: s) ++ d :: t by simp]
        exact read_append rfl
      have htake : (pre.take (2 * s.length)).length = 2 * s.length := List.length_take_of_le (by omega)
      have hdrop : (pre.drop (2 * s.length)).length = 2 := by
        rw [List.length_drop]
        omega
      obtain ⟨a, b, hab⟩ := List.length_eq_two.mp hdrop
      have hsplit : pre ++ rest = pre.take (2 * s.length) ++ a :: b :: rest := by
        conv_lhs => rw [← List.take_append_drop (2 * s.length) pre, hab]
        rw [List.append_assoc]
        rfl
      have hih := @ih (d :: t) _ (ctohexstr d ++ rest) (Nat.lt_of_succ_lt hs) htake
      rw [hlength, hsplit]
      conv_lhs => unfold encodeLoop
      rw [hread, Option.bind_eq_bind, Option.bind_some, writeDigits_append htake hs,
        Option.bind_eq_bind, Option.bind_some]
      have hvalue : c :: (s ++ [d]) ++ t = c :: s ++ d :: t := by simp
      rw [hvalue, hih, List.flatMap_append, List.append_assoc]
      rfl

/-- From 2 ^ 31 bytes on, one of them has its digits in front of the buffer. -/
theorem encodeLoop_eq_none {n : Nat} (hn : 2 ^ 31 ≤ n) (hlt : n < 2 ^ 32) :
    encodeLoop value n p = none := by
  induction n generalizing p with
  | zero => omega
  | succ n ih =>
      unfold encodeLoop
      cases read value (n + 1) with
      | none => rfl
      | some c =>
          rw [Option.bind_eq_bind, Option.bind_some]
          by_cases hlast : 2 ^ 31 ≤ n
          · cases writeDigits p (((BitVec.ofNat 32 (n + 1) * 2).toNat : Int) - 2) c with
            | none => rfl
            | some q => exact ih hlast (by omega)
          · obtain rfl : n = 2 ^ 31 - 1 := by omega
            rfl

/-- A byte of the value is read. -/
theorem read_chars {value : List UInt8} {i : Nat} {b : UInt8} (h : value[i]? = some b) :
    read (chars value ++ ['\x00']) i = some (Char.ofNat b.toNat) := by
  have hlt := (List.getElem?_eq_some_iff.mp h).1
  have hlen : (chars value).length = value.length := List.length_map _
  unfold Buffers.read
  rw [List.getElem?_append_left (hlen ▸ hlt), chars, List.getElem?_map, h]
  rfl

/-- The digits of an accepted string. -/
theorem digitsOf_string {s : List UInt8} {n : Nat}
    (hlast : (34 :: s)[(BitVec.ofNat 32 (34 :: s).length - 1).toNat]? = some 34)
    (hn : (BitVec.ofNat 32 (34 :: s).length - 2).toNat = n) (hshort : n < 2 ^ 31) :
    n ≤ s.length ∧
      digitsOf junk (chars (34 :: s)) = some (some ((chars (s.take n)).flatMap ctohexstr)) := by
  have hle : n ≤ s.length := by
    rw [BitVec.toNat_sub, BitVec.toNat_ofNat, List.length_cons] at hn
    have htwo : (2 : BitVec 32).toNat = 2 := rfl
    omega
  refine ⟨hle, ?_⟩
  have hlen : (chars (34 :: s)).length = (34 :: s).length := List.length_map _
  have hread := read_chars hlast
  have hsize : ((BitVec.ofNat 32 (34 :: s).length - 2) * 2 + 1).toNat = 2 * n + 1 := by
    rw [BitVec.toNat_add, BitVec.toNat_mul, hn]
    show (n * 2 % 2 ^ 32 + 1) % 2 ^ 32 = _
    omega
  have hend : ((BitVec.ofNat 32 (34 :: s).length - 2) * 2).toNat = 2 * n := by
    rw [BitVec.toNat_mul, hn]
    show n * 2 % 2 ^ 32 = _
    omega
  have hwrite : write (List.replicate (2 * n + 1) junk) (2 * n) '\x00' =
      some (List.replicate (2 * n) junk ++ ['\x00']) := by
    rw [List.replicate_succ']
    exact write_append (List.length_replicate).symm
  have htake : (chars (s.take n)).length = n := by
    rw [chars, List.length_map, List.length_take_of_le hle]
  have hvalue : chars (34 :: s) ++ ['\x00'] =
      '"' :: chars (s.take n) ++ (chars (s.drop n) ++ ['\x00']) := by
    have hchars : chars s = chars (s.take n) ++ chars (s.drop n) := by
      rw [chars, chars, chars, ← List.map_append, List.take_append_drop]
    show '"' :: (chars s ++ ['\x00']) = '"' :: (chars (s.take n) ++ (chars (s.drop n) ++ ['\x00']))
    rw [hchars, List.append_assoc]
  have hloop := @encodeLoop_eq (chars (s.take n)) (chars (s.drop n) ++ ['\x00']) '"'
    (List.replicate (2 * n) junk) ['\x00'] (by rw [htake]; exact hshort)
    (by rw [htake, List.length_replicate])
  rw [htake, ← hvalue] at hloop
  unfold digitsOf
  have hfirst : read (chars (34 :: s) ++ ['\x00']) 0 = some '"' := rfl
  have hquote : Char.ofNat (34 : UInt8).toNat = '"' := rfl
  simp only [Option.bind_eq_bind, hfirst, Option.bind_some, hlen, hread, hquote, if_true, hsize, hend,
    hwrite, hn, hloop, Buffers.text_append]
  congr 2
  rw [List.takeWhile_eq_self_iff]
  intro c hc
  rw [List.mem_flatMap] at hc
  obtain ⟨a, ha, hc⟩ := hc
  obtain ⟨b, -, rfl⟩ := List.mem_map.mp ha
  have hne : c ≠ '\x00' := fun h => nul_notMem_ctohexstr b (h ▸ hc)
  exact decide_eq_true hne

/-- The loop over a long string leaves the buffer. -/
theorem digitsOf_long {s : List UInt8}
    (hlast : (34 :: s)[(BitVec.ofNat 32 (34 :: s).length - 1).toNat]? = some 34)
    (hlong : 2 ^ 31 ≤ (BitVec.ofNat 32 (34 :: s).length - 2).toNat) :
    digitsOf junk (chars (34 :: s)) = none := by
  have hlen : (chars (34 :: s)).length = (34 :: s).length := List.length_map _
  have hread := read_chars hlast
  have hfirst : read (chars (34 :: s) ++ ['\x00']) 0 = some '"' := rfl
  have hquote : Char.ofNat (34 : UInt8).toNat = '"' := rfl
  unfold digitsOf
  simp only [Option.bind_eq_bind, hfirst, Option.bind_some, hlen, hread, hquote, if_true]
  rw [Option.bind_eq_none_iff]
  intro p hp
  rw [encodeLoop_eq_none hlong (BitVec.isLt _), Option.bind_none]

/-- A string that does not end with a quote is rejected. -/
theorem digitsOf_open {s : List UInt8}
    (hlast : (34 :: s)[(BitVec.ofNat 32 (34 :: s).length - 1).toNat]? ≠ some 34) :
    digitsOf junk (chars (34 :: s)) = some none := by
  have hlen : (chars (34 :: s)).length = (34 :: s).length := List.length_map _
  have hlt : (BitVec.ofNat 32 (34 :: s).length - 1).toNat < (34 :: s).length := by
    rw [BitVec.toNat_sub, BitVec.toNat_ofNat, List.length_cons]
    have hone : (1 : BitVec 32).toNat = 1 := rfl
    omega
  have hread := read_chars (List.getElem?_eq_getElem hlt)
  have hfirst : read (chars (34 :: s) ++ ['\x00']) 0 = some '"' := rfl
  have hother : Char.ofNat ((34 :: s)[(BitVec.ofNat 32 (34 :: s).length - 1).toNat]).toNat ≠ '"' := by
    intro h
    rw [List.getElem?_eq_getElem hlt] at hlast
    exact hlast (congrArg some (char_inj (b := 34) h))
  unfold digitsOf
  simp only [Option.bind_eq_bind, hfirst, Option.bind_some, hlen, hread, if_true, if_neg hother]
  rfl

/-- A character between quotes is encoded, whatever stands behind it. -/
theorem digitsOf_character (b : UInt8) (s : List UInt8) :
    digitsOf junk (chars (39 :: b :: s)) = some (some (ctohexstr (Char.ofNat b.toNat))) := by
  set c := Char.ofNat b.toNat with hc
  obtain ⟨a, rest, hrest⟩ : ∃ a rest, chars s ++ ['\x00'] = a :: rest :=
    List.exists_cons_of_ne_nil (List.append_ne_nil_of_right_ne_nil _ nofun)
  have hvalue : chars (39 :: b :: s) ++ ['\x00'] = '\'' :: c :: a :: rest := by
    rw [← hrest]
    rfl
  have hdigits : writeDigits ('\'' :: c :: a :: rest) 0 c = some (ctohexstr c ++ a :: rest) := rfl
  have hend : write (ctohexstr c ++ a :: rest) 2 '\x00' = some (ctohexstr c ++ '\x00' :: rest) :=
    write_append rfl
  have htext : (ctohexstr c).takeWhile (· ≠ '\x00') = ctohexstr c := by
    rw [List.takeWhile_eq_self_iff]
    intro d hd
    have hne : d ≠ '\x00' := fun h => nul_notMem_ctohexstr b (h ▸ hd)
    exact decide_eq_true hne
  have hfirst : read ('\'' :: c :: a :: rest) 0 = some '\'' := rfl
  have hsecond : read ('\'' :: c :: a :: rest) 1 = some c := rfl
  unfold digitsOf
  simp only [hvalue, Option.bind_eq_bind, hfirst, Option.bind_some, if_true, hsecond, hdigits, hend,
    Buffers.text_append, htext]
  rfl

/-- A lone quote is not long enough. -/
theorem digitsOf_quote : digitsOf junk (chars [39]) = none := rfl

/-- Without a quote or a marker in front, the text itself is sent. -/
theorem digitsOf_digits {text : CStr} (hstring : text.head? ≠ some '"')
    (hcharacter : text.head? ≠ some '\'') (hmarker : ∀ t, text ≠ '0' :: 'x' :: t) :
    digitsOf junk text = some (some text) := by
  cases text with
  | nil => rfl
  | cons a t =>
      have hfirst : read (a :: t ++ ['\x00']) 0 = some a := rfl
      have ha : a ≠ '"' := fun h => hstring (congrArg some h)
      have ha' : a ≠ '\'' := fun h => hcharacter (congrArg some h)
      unfold digitsOf
      simp only [Option.bind_eq_bind, hfirst, Option.bind_some, if_neg ha, if_neg ha']
      rw [if_neg]
      · rfl
      · rintro ⟨rfl, hsecond⟩
        cases t with
        | nil => cases hsecond
        | cons b t =>
            obtain rfl : b = 'x' := Option.some_inj.mp hsecond
            exact hmarker t rfl

/-- Behind a marker, the rest is sent. -/
theorem digitsOf_marked (t : CStr) : digitsOf junk ('0' :: 'x' :: t) = some (some t) := rfl

/-! ## The command -/

/-- The command that writes digits. -/
def writeLine (token cnt : BitVec 32) (addr : BitVec 64) (digits : CStr) : List CStr :=
  [itoa 10 token.toNat, ['-'], "data-write-memory-bytes".toList, [' '], ['0'], ['x'],
    itoa 16 addr.toNat, [' '], digits] ++
    (if cnt ≠ 0 then [[' '], itoa 10 cnt.toNat] else []) ++ [['\n']]

/-- The digits are what is written behind the address. -/
theorem setCmd_eq (junk : Char) (token cnt : BitVec 32) (addr : BitVec 64) (text : CStr) :
    setCmd junk token cnt addr text =
      (digitsOf junk text).map fun r =>
        r.map fun digits => (writeLine token cnt addr digits, .ok) := by
  unfold setCmd writeLine
  by_cases hcnt : cnt ≠ 0
  · simp only [if_pos hcnt]
    rfl
  · simp only [if_neg hcnt]
    rfl

end Vimgdb.MemorySet
