import Vimgdb.User.PerChecks
import Vimgdb.User.PerView

/-!
# The rows of the registers

What `cmd_per_update` prints when the registers are inside of their ranges and the memory has two
digits for each byte.

* `pairText`: a text with two digits for each byte.
* `registerRow`: the row of a register, from its own bytes.
* `rangePieces`: the text of a range.
* `showRegister_eq`: a register adds its rows and leaves the memory as it was.
* `updateText_eq`: the text of an update, and the memory behind it.
-/

namespace Vimgdb.Per.View

open Buffers MarkedText Printf Programs
open Gdb (MemoryObject)

/-! ## Two digits for each byte -/

/-- The text of some bytes, each with its two digits. -/
def pairText (cells : List (Char × Char)) : CStr := cells.flatMap fun c => [c.1, c.2]

/-- The digits of a byte. -/
def IsByte (c : Char × Char) : Prop := (digitValue 16 c.1).isSome ∧ (digitValue 16 c.2).isSome

instance (c : Char × Char) : Decidable (IsByte c) := inferInstanceAs (Decidable (_ ∧ _))

/-- The bytes of a register, in the order of memory. -/
def Cells (reg : Register) (cells : List (Char × Char)) : List (Char × Char) :=
  (cells.drop reg.offset.toNat).take reg.nbytes.toNat

/-- The bytes of a register in the order in which they are shown. -/
def ordered (endian : Endian) (reg : Register) (cells : List (Char × Char)) : List (Char × Char) :=
  if byteSwapCond reg.opt endian then (Cells reg cells).reverse else Cells reg cells

variable {cells old : List (Char × Char)} {k n : Nat}

theorem pairText_cons (c : Char × Char) (cells : List (Char × Char)) :
    pairText (c :: cells) = c.1 :: c.2 :: pairText cells := rfl

theorem pairText_append (cells cells' : List (Char × Char)) :
    pairText (cells ++ cells') = pairText cells ++ pairText cells' := List.flatMap_append

theorem length_pairText (cells : List (Char × Char)) : (pairText cells).length = 2 * cells.length := by
  induction cells with
  | nil => rfl
  | cons c cells ih =>
      rw [pairText_cons, List.length_cons, List.length_cons, List.length_cons, ih]
      omega

/-- Swapping reverses the bytes. -/
theorem reversed_pairText (cells : List (Char × Char)) :
    Strswap.reversed (pairText cells) = pairText cells.reverse := by
  induction cells with
  | nil => rfl
  | cons c cells ih =>
      rw [pairText_cons, Strswap.reversed_cons, ih, List.reverse_cons, pairText_append]
      rfl

theorem pairText_injective : Function.Injective pairText := by
  intro cells
  induction cells with
  | nil =>
      intro cells' h
      cases cells' with
      | nil => rfl
      | cons c' cells' => cases h
  | cons c cells ih =>
      intro cells' h
      cases cells' with
      | nil => cases h
      | cons c' cells' =>
          rw [pairText_cons, pairText_cons] at h
          obtain ⟨h₁, h⟩ := List.cons.inj h
          obtain ⟨h₂, h⟩ := List.cons.inj h
          rw [ih h, Prod.ext h₁ h₂]

theorem nul_notMem_pairText (h : ∀ c ∈ cells, IsByte c) : '\x00' ∉ pairText cells := by
  have hnul : ¬ (digitValue 16 '\x00').isSome := by decide
  intro hmem
  obtain ⟨c, hc, hmem⟩ := List.mem_flatMap.mp hmem
  simp only [List.mem_cons, List.not_mem_nil, or_false] at hmem
  rcases hmem with heq | heq
  · exact hnul (heq ▸ (h c hc).1)
  · exact hnul (heq ▸ (h c hc).2)

/-! ## The rows -/

/-- A heading, or an empty line. -/
def headingText (reg : Register) : CStr :=
  " \xc2\xb4h1".toList ++ scanned (reg.name.getD []) ++ dash reg.desc ++
    scanned (reg.desc.getD []) ++ "`h1\n".toList

/-- The row of a register with some digits. -/
def valueText (reg : Register) (modified : Bool) (digits : CStr) : CStr :=
  "  \xc2\xb4h2".toList ++ scanned (orNull reg.name) ++ dash reg.desc ++
    scanned (reg.desc.getD []) ++ "`h2 = ".toList ++ (changed modified).1 ++ digits ++
    (changed modified).2 ++ "\n".toList

/-- The row of a register: its own bytes, in its own order, with a mark if they have changed. -/
def registerText (endian : Endian) (reg : Register) (old cells : List (Char × Char)) : CStr :=
  valueText reg (Cells reg cells ≠ Cells reg old) (pairText (ordered endian reg cells))

/-- Some bits with their value. -/
def bitsText (bits : Bits) (modified : Bool) (v : BitVec 64) : CStr :=
  "   \xc2\xb4h3".toList ++ scanned bits.name ++ "`h3 ".toList ++ (changed modified).1 ++
    hexDigits ((bits.nbits + 3) / 4) v ++ (changed modified).2

/-- The header of a section. -/
def headerText (sec : Section) : CStr :=
  "[".toList ++ [if sec.expanded then '-' else '+'] ++ "] \xc2\xb4h0".toList ++
    scanned sec.name ++ "`h0\n".toList

theorem scanned_dash (desc : Option CStr) : scanned (dash desc) = dash desc := by
  unfold dash
  split <;> decide

theorem vsnprintf_heading (reg : Register) : vsnprintf " \xc2\xb4h1%s%s%s`h1\n".toList
    [.str (reg.name.getD []), .str (dash reg.desc), .str (reg.desc.getD [])] =
      some (headingText reg) := by
  unfold headingText vsnprintf
  rw [scanned_of_notMem (by decide)]
  simp [scan, convert_string, Spec.modify, scanned_dash]

theorem vsnprintf_value (reg : Register) (modified : Bool) (precision : BitVec 32) (value : CStr) :
    vsnprintf "  \xc2\xb4h2%s%s%s`h2 = %s%.*s%s\n".toList
      [.str (orNull reg.name), .str (dash reg.desc), .str (reg.desc.getD []),
        .str (changed modified).1, .int precision, .str value, .str (changed modified).2] =
      some (valueText reg modified (cut precision value)) := by
  unfold valueText vsnprintf
  rw [scanned_of_notMem (by decide)]
  simp [scan, convert_string, convert_cut, Spec.modify, scanned_dash, scanned_changed]

theorem vsnprintf_bits (bits : Bits) (modified : Bool) (v : BitVec 64) :
    vsnprintf "   \xc2\xb4h3%s`h3 %s%.*lx%s".toList
      [.str bits.name, .str (changed modified).1, .int ((bits.nbits + 3) / 4), .long v,
        .str (changed modified).2] = some (bitsText bits modified v) := by
  unfold bitsText vsnprintf
  rw [scanned_of_notMem (by decide)]
  simp [scan, convert_string, convert_hexDigits, Spec.modify, scanned_changed]

theorem vsnprintf_header (sec : Section) : vsnprintf "[%c] \xc2\xb4h0%s`h0\n".toList
    [.chr (if sec.expanded then '-' else '+'), .str sec.name] = some (headerText sec) := by
  unfold headerText vsnprintf
  rw [scanned_of_notMem (by decide)]
  simp [scan, convert_string, convert_char, Spec.modify]

/-! ## The text -/

/-- What is printed, with the values of bits behind it. -/
structure Print where
  pieces : List (Piece Char Row)
  values : BitsPtr → BitVec 64

/-- Nothing is printed. -/
def Print.nil (values : BitsPtr → BitVec 64) : Print := ⟨[], values⟩

/-- More is printed behind it. -/
def Print.andThen (r : Print) (f : (BitsPtr → BitVec 64) → Print) : Print :=
  ⟨r.pieces ++ (f r.values).pieces, (f r.values).values⟩

/-- A text, which may show something. -/
def Print.text (t : CStr) (shows : Option Row) (values : BitsPtr → BitVec 64) : Print :=
  ⟨[⟨t, shows⟩], values⟩

/-- What is printed in a loop. -/
def printAll {α : Type} (f : Nat → α → (BitsPtr → BitVec 64) → Print) :
    Nat → List α → (BitsPtr → BitVec 64) → Print
  | _, [], values => .nil values
  | k, x :: xs, values => (f k x values).andThen (printAll f (k + 1) xs)

/-- Some bits: they are on a new line behind each four, and have a mark if their value has changed. -/
def bitsPieces (sh : Shifts) (p : RegisterPtr) (val : BitVec 64) (i : Nat) (bits : Bits)
    (values : BitsPtr → BitVec 64) : Print :=
  let v := sh.bitVal val bits
  Print.andThen (if i ≠ 0 ∧ i % 4 = 0 then .text "\n".toList none values else .nil values)
    fun values => .text (bitsText bits (v ≠ values ⟨p, i⟩) v) (some (.bits ⟨p, i⟩))
      (Function.update values ⟨p, i⟩ v)

/-- The bits of a register, with the blank line behind them. -/
def fieldPieces (sh : Shifts) (p : RegisterPtr) (reg : Register) (val : BitVec 64)
    (values : BitsPtr → BitVec 64) : Print :=
  if reg.bits = [] then .nil values
  else (printAll (bitsPieces sh p val) 0 reg.bits values).andThen (.text "\n\n".toList none)

/-- A register, from its own bytes. -/
def registerPieces (sh : Shifts) (endian : Endian) (old cells : List (Char × Char))
    (p : RegisterPtr) (reg : Register) (values : BitsPtr → BitVec 64) : Print :=
  if reg.nbytes = 0 then .text (headingText reg) (some (.heading p)) values
  else (Print.text (registerText endian reg old cells) (some (.register p)) values).andThen
    (fieldPieces sh p reg (strtollHex (pairText (ordered endian reg cells))))

/-- A section. -/
def sectionPieces (sh : Shifts) (endian : Endian) (old cells : List (Char × Char)) (p : SectionPtr)
    (sec : Section) (values : BitsPtr → BitVec 64) : Print :=
  ((Print.text (headerText sec) (some (.sec p)) values).andThen
    (printAll (fun k => registerPieces sh endian old cells ⟨p, k⟩) 0
      (if sec.expanded then sec.regs else []))).andThen (.text "\n".toList none)

/-! ## Printing it -/

variable {sh : Shifts} {endian : Endian} {s : CStr} {sheet sheet' : Sheet}
  {p : RegisterPtr} {reg : Register}

/-- It is put behind the text of a sheet, with the next line and the line maps. -/
def Sheet.put (sheet : Sheet) (r : Print) (shown : Shown) : Option Sheet :=
  (sheet.obuf.extend r.pieces).map fun obuf => ⟨shown, obuf, r.values⟩

theorem Sheet.put_nil (sheet : Sheet) :
    sheet.put (.nil sheet.values) sheet.toShown = some sheet := by
  unfold Sheet.put Print.nil
  rw [Dynarray.extend_nil]
  rfl

theorem Print.andThen_assoc (r : Print) (f g : (BitsPtr → BitVec 64) → Print) :
    (r.andThen f).andThen g = r.andThen fun values => (f values).andThen g := by
  unfold Print.andThen
  dsimp only
  rw [List.append_assoc]

/-- More is put behind it, and a value is made. -/
theorem Sheet.put_bind_map {α : Type} {r : Print} {shown shown' : Shown}
    {q : (BitsPtr → BitVec 64) → Print} {k : Sheet → Option α} {f : Sheet → α}
    (hk : ∀ obuf, k ⟨shown, obuf, r.values⟩ =
      (Sheet.put ⟨shown, obuf, r.values⟩ (q r.values) shown').map f) :
    (sheet.put r shown).bind k = (sheet.put (r.andThen q) shown').map f := by
  have hextend := sheet.obuf.extend_bind r.pieces (q r.values).pieces
  unfold Sheet.put Print.andThen
  dsimp only
  rw [← hextend]
  cases sheet.obuf.extend r.pieces with
  | none => rfl
  | some obuf =>
      rw [Option.map_some, Option.bind_some, Option.bind_some, hk]
      rfl

/-- More is put behind it. -/
theorem Sheet.put_bind {r : Print} {shown shown' : Shown} {q : (BitsPtr → BitVec 64) → Print}
    {k : Sheet → Option Sheet} (hk : ∀ obuf, k ⟨shown, obuf, r.values⟩ =
      Sheet.put ⟨shown, obuf, r.values⟩ (q r.values) shown') :
    (sheet.put r shown).bind k = sheet.put (r.andThen q) shown' := by
  calc (sheet.put r shown).bind k
      = (sheet.put (r.andThen q) shown').map id := Sheet.put_bind_map fun obuf => by
        rw [Option.map_id, hk]
        rfl
    _ = sheet.put (r.andThen q) shown' := by
        rw [Option.map_id]
        rfl

/-- A text that is added is put. -/
theorem Sheet.add_eq {shows : Option Row} {fmt : String} {args : List Arg} {t : CStr}
    (h : vsnprintf fmt.toList args = some t) :
    sheet.add shows fmt args = sheet.put (.text t shows sheet.values) sheet.toShown := by
  unfold Sheet.add Sheet.put
  rw [Dynarray.add_eq, h]
  rfl

theorem Sheet.add_skip_eq {shows : Option Row} {fmt : String} {args : List Arg} {t : CStr}
    (h : vsnprintf fmt.toList args = some t) (n : BitVec 32) :
    (sheet.add shows fmt args).map (fun sheet => sheet.skip n) =
      sheet.put (.text t shows sheet.values) (skipLines sheet.toShown n) := by
  rw [Sheet.add_eq h]
  unfold Sheet.put
  rw [Option.map_map]
  rfl

/-- Lines are ended, behind which nothing is shown. -/
theorem Sheet.add_pair {fmt : String} {t : CStr} (h : vsnprintf fmt.toList [] = some t)
    (n : BitVec 32) (s : CStr) : ((sheet.add none fmt []).bind fun sheet => some (s, sheet.skip n)) =
      (sheet.put (.text t none sheet.values) (skipLines sheet.toShown n)).map
        fun sheet => (s, sheet) := by
  rw [← Sheet.add_skip_eq h, Option.map_map]
  cases sheet.add none fmt [] <;> rfl

/-- A line is ended behind four bits. -/
theorem breakLine_eq (i : Nat) (sheet : Sheet) : breakLine i sheet =
    sheet.put (if i ≠ 0 ∧ i % 4 = 0 then .text "\n".toList none sheet.values else .nil sheet.values)
      (skipLines sheet.toShown (BitVec.ofNat 32 (if i ≠ 0 ∧ i % 4 = 0 then 1 else 0))) := by
  unfold breakLine
  split
  · exact Sheet.add_skip_eq (by decide) 1
  · have hzero : skipLines sheet.toShown (BitVec.ofNat 32 0) = sheet.toShown := skipLines_zero _
    rw [hzero]
    exact (Sheet.put_nil sheet).symm

theorem showBits_eq (val : BitVec 64) (i : Nat) (bits : List Bits) (sheet : Sheet) :
    showBits sh p val i bits sheet = sheet.put (printAll (bitsPieces sh p val) i bits sheet.values)
      (skipLines sheet.toShown (BitVec.ofNat 32 (breaksIn i bits.length))) := by
  induction bits generalizing i sheet with
  | nil =>
      have hzero : breaksIn i 0 = 0 := by
        unfold breaksIn
        omega
      rw [List.length_nil, hzero]
      exact (congrArg (sheet.put _) (skipLines_zero _)).trans (Sheet.put_nil sheet) |>.symm
  | cons b bits ih =>
      have hlines : skipLines (skipLines sheet.toShown (BitVec.ofNat 32
          (if i ≠ 0 ∧ i % 4 = 0 then 1 else 0))) (BitVec.ofNat 32 (breaksIn (i + 1) bits.length)) =
          skipLines sheet.toShown (BitVec.ofNat 32 (breaksIn i (b :: bits).length)) := by
        rw [skipLines_skipLines, List.length_cons, breaksIn_succ, BitVec.ofNat_add]
      unfold showBits
      rw [breakLine_eq, Option.bind_eq_bind, ← hlines, printAll]
      unfold bitsPieces
      rw [Print.andThen_assoc]
      refine Sheet.put_bind fun obuf => ?_
      dsimp only
      rw [Sheet.add_eq (vsnprintf_bits b _ _)]
      exact Sheet.put_bind fun obuf => ih (i + 1) _

/-- The bits of a register, once its digits have been read. -/
theorem showFields_eq {val : BitVec 64} (hval : reg.bits ≠ [] →
    regVal s (reg.offset * 2).toNat (reg.offset * 2 + reg.nbytes * 2).toNat = some (val, s)) :
    showFields sh p reg s sheet = (sheet.put (fieldPieces sh p reg val sheet.values)
      (skipLines sheet.toShown
        (if reg.bits = [] then 0 else BitVec.ofNat 32 ((reg.bits.length - 1) / 4) + 2))).map
          fun sheet => (s, sheet) := by
  unfold showFields fieldPieces
  by_cases hbits : reg.bits = []
  · rw [if_pos hbits, if_pos hbits, if_pos hbits, skipLines_zero, Sheet.put_nil]
    rfl
  · have hbreaks : breaksIn 0 reg.bits.length = (reg.bits.length - 1) / 4 := by
      unfold breaksIn
      omega
    rw [if_neg hbits, if_neg hbits, if_neg hbits, hval hbits, Option.bind_eq_bind,
      Option.bind_some]
    dsimp only
    rw [showBits_eq, Option.bind_eq_bind, ← skipLines_skipLines, hbreaks]
    refine Sheet.put_bind_map fun obuf => ?_
    exact Sheet.add_pair (by decide) 2 s

/-- What is too long is not printed. -/
theorem Sheet.put_long {t : CStr} {shows : Option Row} {values : BitsPtr → BitVec 64} {shown : Shown}
    (h : 2 ^ 31 ≤ t.length) : sheet.put (.text t shows values) shown = none := by
  have hlong : ¬ (MarkedText.text (sheet.obuf.pieces ++ [⟨t, shows⟩])).length < 2 ^ 31 := by
    rw [MarkedText.text_append, text_singleton, List.length_append]
    dsimp only
    omega
  have hnone : sheet.obuf.extend [⟨t, shows⟩] = none := dif_neg hlong
  unfold Sheet.put Print.text
  rw [hnone]
  rfl

theorem length_le_valueText (reg : Register) (modified : Bool) (digits : CStr) :
    digits.length ≤ (valueText reg modified digits).length := by
  unfold valueText
  simp only [List.length_append]
  omega

/-- The digits of a register, which are in front of `t`; they need no more space than there is. -/
theorem showValue_eq {modified : Bool} {digits t : CStr} (hdrop : s.drop (reg.offset * 2).toNat =
      digits ++ t) (hnul : '\x00' ∉ digits) (hlen : digits.length = (reg.nbytes * 2).toNat)
    (ht : '\x00' ∈ t) : showValue p reg modified s sheet =
      sheet.put (.text (valueText reg modified digits) (some (.register p)) sheet.values)
        (skipLines sheet.toShown 1) := by
  have hreadable : readable (reg.nbytes * 2) (digits ++ t) = true := by
    unfold readable
    simp [ht]
  unfold showValue
  dsimp only
  rw [hdrop, if_pos hreadable, Sheet.add_skip_eq (vsnprintf_value reg modified _ _)]
  by_cases hsmall : (reg.nbytes * 2).toNat < 2 ^ 31
  · rw [cut_of_lt hsmall hnul hlen]
  · -- a negative precision, and more digits than fit
    have hcut := length_cut (t := t) (Nat.not_lt.mp hsmall) hnul
    have hleft := length_le_valueText reg modified (cut (reg.nbytes * 2) (digits ++ t))
    have hright := length_le_valueText reg modified digits
    rw [Sheet.put_long (by omega), Sheet.put_long (by omega)]

/-! ## The memory -/

/-- A part of a buffer is swapped. -/
theorem swapAt_pairText {pre post : CStr} {start : Nat} {len : BitVec 32} (hstart : pre.length = start)
    (hlen : (pairText cells).length = len.toNat) :
    swapAt (pre ++ pairText cells ++ post) start len = some (pre ++ pairText cells.reverse ++ post) := by
  rw [swapAt_eq hstart hlen, reversed_pairText]
  rw [View.length_pairText]
  exact Nat.mul_mod_right 2 _

/-- The digits of a register are read, and nothing changes. -/
theorem regVal_eq {pre body post : CStr} {start stop : Nat} (hstart : pre.length = start)
    (hstop : (pre ++ body).length = stop) (hnul : '\x00' ∉ body) (hpost : post ≠ []) :
    regVal (pre ++ body ++ post) start stop = some (strtollHex body, pre ++ body ++ post) := by
  obtain ⟨c, post, rfl⟩ := List.exists_cons_of_ne_nil hpost
  have hdigits : Buffers.text '\x00' ((pre ++ body ++ '\x00' :: post).drop start) = some body := by
    rw [List.append_assoc, ← hstart, List.drop_left, Buffers.text_append]
    exact congrArg some (scanned_of_notMem hnul)
  unfold regVal
  rw [read_append hstop.symm, Option.bind_eq_bind, Option.bind_some, write_append hstop.symm,
    Option.bind_eq_bind, Option.bind_some, hdigits]
  dsimp only [Option.bind_eq_bind, Option.bind_some]
  rw [write_append hstop.symm]
  rfl

/-- What has been fetched for a range of so many bytes; the length of a text is an `unsigned int`. -/
structure Fetched (size : BitVec 32) (cells : List (Char × Char)) : Prop where
  length : cells.length = size.toNat
  bytes : ∀ c ∈ cells, IsByte c
  short : 2 * size.toNat < 2 ^ 32

/-- The content of the memory with its 0. -/
def buffer (cells : List (Char × Char)) : CStr := pairText cells ++ ['\x00']

/-- What is in front of a register, and what is behind it. -/
def before (reg : Register) (cells : List (Char × Char)) : CStr :=
  pairText (cells.take reg.offset.toNat)

def behind (reg : Register) (cells : List (Char × Char)) : CStr :=
  pairText (cells.drop (reg.offset.toNat + reg.nbytes.toNat)) ++ ['\x00']

variable {size : BitVec 32}

theorem buffer_eq (reg : Register) (cells : List (Char × Char)) :
    buffer cells = before reg cells ++ pairText (Cells reg cells) ++ behind reg cells := by
  have hrest : cells.drop reg.offset.toNat =
      Cells reg cells ++ cells.drop (reg.offset.toNat + reg.nbytes.toNat) := by
    unfold Cells
    rw [← List.drop_drop, List.take_append_drop]
  have hcells : cells = cells.take reg.offset.toNat ++
      (Cells reg cells ++ cells.drop (reg.offset.toNat + reg.nbytes.toNat)) := by
    rw [← hrest, List.take_append_drop]
  unfold buffer before behind
  conv_lhs => rw [hcells]
  rw [pairText_append, pairText_append]
  simp only [List.append_assoc]

/-- The places of a register that is inside of its range. -/
structure Placed (reg : Register) (cells : List (Char × Char)) : Prop where
  start : (before reg cells).length = (reg.offset * 2).toNat
  len : (Cells reg cells).length = reg.nbytes.toNat
  digits : (reg.nbytes * 2).toNat = 2 * reg.nbytes.toNat
  stop : (before reg cells).length + 2 * reg.nbytes.toNat = (reg.offset * 2 + reg.nbytes * 2).toNat

theorem placed (h : Fetched size cells) (hlies : reg.Lies size) (hzero : reg.nbytes ≠ 0) :
    Placed reg cells := by
  have hle := hlies.resolve_left hzero
  have hlength := h.length
  have hshort := h.short
  have hstart : (reg.offset * 2).toNat = 2 * reg.offset.toNat := by
    rw [BitVec.toNat_mul]
    show reg.offset.toNat * 2 % 2 ^ 32 = _
    omega
  have hdigits : (reg.nbytes * 2).toNat = 2 * reg.nbytes.toNat := by
    rw [BitVec.toNat_mul]
    show reg.nbytes.toNat * 2 % 2 ^ 32 = _
    omega
  have hbefore : (before reg cells).length = 2 * reg.offset.toNat := by
    unfold before
    rw [length_pairText, List.length_take]
    omega
  refine ⟨hbefore.trans hstart.symm, ?_, hdigits, ?_⟩
  · unfold Cells
    rw [List.length_take, List.length_drop]
    omega
  · rw [hbefore, BitVec.toNat_add, hstart, hdigits]
    omega

theorem Placed.length_pairText (h : Placed reg cells) {cs : List (Char × Char)}
    (hcs : cs.length = (Cells reg cells).length) : (pairText cs).length = (reg.nbytes * 2).toNat := by
  rw [View.length_pairText, hcs, h.len, h.digits]

/-- The part of a register in the buffer. -/
theorem Placed.slice (h : Placed reg cells) :
    ((buffer cells).drop (reg.offset * 2).toNat).take (reg.nbytes * 2).toNat =
      pairText (Cells reg cells) ∧
    (reg.offset * 2).toNat + (reg.nbytes * 2).toNat ≤ (buffer cells).length := by
  have hlen := h.length_pairText rfl
  rw [buffer_eq reg cells, List.append_assoc, ← h.start, ← hlen]
  constructor
  · rw [List.drop_left, List.take_left]
  · simp only [List.length_append]
    omega

/-- The bytes of a register are compared. -/
theorem memcmp_eq (h : Placed reg cells) (hold : Placed reg old) :
    memcmp (buffer cells) (buffer old) (reg.offset * 2).toNat (reg.nbytes * 2).toNat =
      some (decide (Cells reg cells ≠ Cells reg old)) := by
  obtain ⟨hslice, hle⟩ := h.slice
  obtain ⟨hslice', hle'⟩ := hold.slice
  unfold memcmp
  rw [if_pos ⟨hle, hle'⟩, hslice, hslice']
  simp only [ne_eq, pairText_injective.eq_iff]

/-- The buffer while the register is shown. -/
def swapped (endian : Endian) (reg : Register) (cells : List (Char × Char)) : CStr :=
  before reg cells ++ pairText (ordered endian reg cells) ++ behind reg cells

theorem length_ordered (endian : Endian) (reg : Register) (cells : List (Char × Char)) :
    (ordered endian reg cells).length = (Cells reg cells).length := by
  unfold ordered
  split
  · exact List.length_reverse
  · rfl

theorem mem_of_ordered {c : Char × Char} (hc : c ∈ ordered endian reg cells) : c ∈ cells := by
  have hcells : c ∈ Cells reg cells := by
    unfold ordered at hc
    split at hc
    · exact List.mem_reverse.mp hc
    · exact hc
  exact List.mem_of_mem_drop (List.mem_of_mem_take hcells)

theorem nul_notMem_ordered (h : Fetched size cells) (endian : Endian) (reg : Register) :
    '\x00' ∉ pairText (ordered endian reg cells) :=
  nul_notMem_pairText fun c hc => h.bytes c (mem_of_ordered hc)

/-- The swap in front of the row. -/
theorem swapBytes_buffer (h : Placed reg cells) :
    swapBytes endian reg (buffer cells) = some (swapped endian reg cells) := by
  unfold swapBytes swapped ordered
  rw [buffer_eq reg cells]
  split
  · exact swapAt_pairText h.start (h.length_pairText rfl)
  · rfl

/-- The swap behind it undoes the first one. -/
theorem swapBytes_swapped (h : Placed reg cells) :
    swapBytes endian reg (swapped endian reg cells) = some (buffer cells) := by
  unfold swapBytes swapped ordered
  rw [buffer_eq reg cells]
  split
  · rw [swapAt_pairText h.start (h.length_pairText List.length_reverse), List.reverse_reverse]
  · rfl

/-! ## Registers -/

/-- A register adds its rows, from its own bytes, and leaves the memory as it was. -/
theorem showRegister_eq (h : Fetched size cells) (hold : Fetched size old) (hlies : reg.Lies size)
    (sheet : Sheet) : showRegister sh endian p reg (buffer old) (buffer cells) sheet =
      (sheet.put (registerPieces sh endian old cells p reg sheet.values)
        (skipLines (sheet.addReg p).toShown reg.lines)).map fun sheet => (buffer cells, sheet) := by
  unfold showRegister registerPieces Register.lines
  dsimp only
  by_cases hzero : reg.nbytes = 0
  · rw [if_pos hzero, if_pos hzero, if_pos (Or.inl hzero)]
    unfold showHeading
    rw [Sheet.add_skip_eq (vsnprintf_heading reg)]
    rfl
  · have hplaced := placed h hlies hzero
    have hnul := nul_notMem_ordered h endian reg
    have hlen := hplaced.length_pairText (length_ordered endian reg cells)
    have hdrop : (swapped endian reg cells).drop (reg.offset * 2).toNat =
        pairText (ordered endian reg cells) ++ behind reg cells := by
      unfold swapped
      rw [List.append_assoc, ← hplaced.start, List.drop_left]
    have hbehind : '\x00' ∈ behind reg cells := List.mem_append_right _ List.mem_cons_self
    have hval : reg.bits ≠ [] → regVal (swapped endian reg cells) (reg.offset * 2).toNat
        (reg.offset * 2 + reg.nbytes * 2).toNat =
          some (strtollHex (pairText (ordered endian reg cells)), swapped endian reg cells) := by
      intro _
      refine regVal_eq hplaced.start ?_ hnul (List.ne_nil_of_mem hbehind)
      rw [List.length_append, hlen, hplaced.digits, hplaced.stop]
    have hlines : skipLines (skipLines (sheet.addReg p).toShown 1) (if reg.bits = [] then 0
        else BitVec.ofNat 32 ((reg.bits.length - 1) / 4) + 2) =
        skipLines (sheet.addReg p).toShown (if reg.nbytes = 0 ∨ reg.bits = [] then 1
          else 1 + BitVec.ofNat 32 ((reg.bits.length - 1) / 4) + 2) := by
      rw [skipLines_skipLines]
      by_cases hbits : reg.bits = []
      · rw [if_pos hbits, if_pos (Or.inr hbits)]
        rfl
      · rw [if_neg hbits, if_neg fun h => h.elim hzero hbits, BitVec.add_assoc]
    rw [if_neg hzero, if_neg hzero, ← hlines, memcmp_eq hplaced (placed hold hlies hzero),
      Option.bind_eq_bind, Option.bind_some, swapBytes_buffer hplaced, Option.bind_eq_bind,
      Option.bind_some, showValue_eq hdrop hnul hlen hbehind, Option.bind_eq_bind]
    refine Sheet.put_bind_map fun obuf => ?_
    rw [showFields_eq hval]
    cases Sheet.put _ (fieldPieces sh p reg _ _) _ with
    | none => rfl
    | some sheet' =>
        show (swapBytes endian reg (swapped endian reg cells)).bind (fun s => some (s, sheet')) = _
        rw [swapBytes_swapped hplaced]
        rfl

/-! ## Sections -/

/-- The loop over the registers. -/
theorem showRegisters_eq (h : Fetched size cells) (hold : Fetched size old) {q : SectionPtr} {k : Nat}
    {regs : List Register} (hlies : ∀ reg ∈ regs, reg.Lies size) (sheet : Sheet) :
    showRegisters sh endian q (buffer old) k regs (buffer cells) sheet =
      (sheet.put (printAll (fun k => registerPieces sh endian old cells ⟨q, k⟩) k regs sheet.values)
        (Per.showRegisters q k regs sheet.toShown)).map fun sheet => (buffer cells, sheet) := by
  induction regs generalizing k sheet with
  | nil =>
      unfold showRegisters printAll Per.showRegisters
      rw [Sheet.put_nil]
      rfl
  | cons reg regs ih =>
      unfold showRegisters printAll
      rw [showRegister_eq h hold (hlies reg List.mem_cons_self), Option.bind_eq_bind,
        Option.bind_map]
      exact Sheet.put_bind_map fun obuf => ih (fun r hr => hlies r (List.mem_cons_of_mem _ hr)) _

/-- A section adds its header and the rows of its registers. -/
theorem showSection_eq (h : Fetched size cells) (hold : Fetched size old) {q : SectionPtr}
    {sec : Section} (hlies : ∀ reg ∈ sec.regs, reg.Lies size) (sheet : Sheet) :
    showSection sh endian q sec (buffer old) (buffer cells) sheet =
      (sheet.put (sectionPieces sh endian old cells q sec sheet.values)
        (Per.showSection q sec sheet.toShown)).map fun sheet => (buffer cells, sheet) := by
  have hregs : ∀ reg ∈ (if sec.expanded then sec.regs else []), reg.Lies size := by
    intro reg hreg
    split at hreg
    · exact hlies reg hreg
    · cases hreg
  have hshown : Per.showSection q sec sheet.toShown =
      skipLines (Per.showRegisters q 0 (if sec.expanded then sec.regs else [])
        (sheet.addSec q).toShown) 1 := by
    unfold Per.showSection
    dsimp only
    split <;> rfl
  have hheader : showHeader q sec sheet =
      sheet.put (.text (headerText sec) (some (.sec q)) sheet.values) (sheet.addSec q).toShown := by
    unfold showHeader
    rw [Sheet.add_eq (vsnprintf_header sec)]
    unfold Sheet.put
    rw [Option.map_map]
    rfl
  unfold showSection sectionPieces
  rw [hheader, hshown, Option.bind_eq_bind, Print.andThen_assoc]
  refine Sheet.put_bind_map fun obuf => ?_
  rw [showRegisters_eq h hold hregs, Option.bind_eq_bind, Option.bind_map]
  refine Sheet.put_bind_map fun obuf => ?_
  exact Sheet.add_pair (by decide) 1 _

theorem showSections_eq (h : Fetched size cells) (hold : Fetched size old) {load i j : Nat}
    {secs : List Section} (hlies : ∀ sec ∈ secs, ∀ reg ∈ sec.regs, reg.Lies size) (sheet : Sheet) :
    showSections sh endian load i (buffer old) j secs (buffer cells) sheet =
      (sheet.put (printAll (fun j => sectionPieces sh endian old cells ⟨load, i, j⟩) j secs
        sheet.values) (Per.showSections load i j secs sheet.toShown)).map
          fun sheet => (buffer cells, sheet) := by
  induction secs generalizing j sheet with
  | nil =>
      unfold showSections printAll Per.showSections
      rw [Sheet.put_nil]
      rfl
  | cons sec secs ih =>
      unfold showSections printAll
      rw [showSection_eq h hold (hlies sec List.mem_cons_self), Option.bind_eq_bind,
        Option.bind_map]
      exact Sheet.put_bind_map fun obuf => ih (fun s hs => hlies s (List.mem_cons_of_mem _ hs)) _

/-! ## Ranges -/

/-- The bytes of a text. -/
def pairs : CStr → List (Char × Char)
  | a :: b :: s => (a, b) :: pairs s
  | _ => []

theorem pairs_pairText (cells : List (Char × Char)) : pairs (pairText cells) = cells := by
  induction cells with
  | nil => rfl
  | cons c cells ih =>
      rw [pairText_cons, pairs, ih]

/-- A content with two digits for each byte of a range. -/
def IsDump (size : BitVec 32) (content : CStr) : Prop := ∃ cells, content = pairText cells ∧ Fetched size cells

/-- A content is that of a range if its pairs are those of bytes. -/
theorem isDump_of_pairs {size : BitVec 32} {content : CStr} (h : pairText (pairs content) = content)
    (hfetched : Fetched size (pairs content)) : IsDump size content := ⟨pairs content, h.symm, hfetched⟩

/-- The memory of a range, from which its registers are shown. -/
structure Held (range : Range) (mem : MemoryObject) : Prop where
  lies : range.All Register.Lies
  dump : ∃ content, mem.content = some content ∧ IsDump range.size content

/-- A range, from the bytes it has had and those of the reply. -/
def rangePieces (sh : Shifts) (endian : Endian) (load : Nat) (replies : Nat → Option CStr) (i : Nat)
    (r : Range × MemoryObject) : (BitsPtr → BitVec 64) → Print :=
  printAll (fun j => sectionPieces sh endian (pairs (r.2.content.getD []))
    (pairs ((replies i).getD [])) ⟨load, i, j⟩) 0 r.1.sections

/-- The memory as the replies deliver it. -/
def delivered (replies : Nat → Option CStr) : Nat → List MemoryObject → List MemoryObject
  | _, [] => []
  | i, mem :: mems =>
      mem.update ((replies i).map fun content => { content := some content }) ::
        delivered replies (i + 1) mems

/-- The lines of the ranges. -/
def rangeLines (load : Nat) : Nat → List Range → Shown → Shown
  | _, [], shown => shown
  | i, range :: ranges, shown =>
      rangeLines load (i + 1) ranges (Per.showSections load i 0 range.sections shown)

/-- The loop over the ranges, when all of them can be read. -/
theorem showRanges_eq {load i : Nat} {replies : Nat → Option CStr} {ranges : List Range}
    {mems : List MemoryObject} (hheld : List.Forall₂ Held ranges mems)
    (hread : ∀ k range, ranges[k]? = some range →
      ∃ content, replies (i + k) = some content ∧ IsDump range.size content) (sheet : Sheet) :
    showRanges sh endian load replies i ranges mems sheet =
      (sheet.put (printAll (rangePieces sh endian load replies) i (ranges.zip mems) sheet.values)
        (rangeLines load i ranges sheet.toShown)).map
          fun sheet => (delivered replies i mems, sheet, true) := by
  induction hheld generalizing i sheet with
  | nil =>
      unfold showRanges
      rw [List.zip_nil_left, printAll, rangeLines, Sheet.put_nil]
      rfl
  | @cons range mem ranges mems hrange _ ih =>
      obtain ⟨content, hreply, cells, rfl, hcells⟩ := hread 0 range rfl
      obtain ⟨_, hcontent, old, rfl, hold⟩ := hrange.dump
      rw [Nat.add_zero] at hreply
      have hrest : ∀ k r, ranges[k]? = some r →
          ∃ content, replies (i + 1 + k) = some content ∧ IsDump r.size content := by
        intro k r hr
        rw [Nat.add_assoc, Nat.add_comm 1]
        exact hread (k + 1) r hr
      have htext : Buffers.text '\x00' (buffer cells) = some (pairText cells) := by
        unfold buffer
        rw [Buffers.text_append]
        exact congrArg some (scanned_of_notMem (nul_notMem_pairText hcells.bytes))
      have hbuffer : ∀ cells, pairText cells ++ ['\x00'] = buffer cells := fun _ => rfl
      rw [showRanges, hreply]
      dsimp only
      unfold MemoryObject.update
      dsimp only
      rw [hcontent, Option.getD_some, hbuffer, hbuffer, showSections_eq hcells hold hrange.lies,
        Option.bind_eq_bind, Option.bind_map, List.zip_cons_cons, printAll, rangeLines]
      unfold rangePieces
      dsimp only
      rw [hcontent, hreply, Option.getD_some, Option.getD_some, pairs_pairText, pairs_pairText]
      refine Sheet.put_bind_map fun obuf => ?_
      have hloop := ih hrest ⟨Per.showSections load i 0 range.sections sheet.toShown, obuf,
        (printAll (fun j => sectionPieces sh endian old cells ⟨load, i, j⟩) 0 range.sections
          sheet.values).values⟩
      unfold rangePieces at hloop
      dsimp only [Function.comp_apply]
      rw [htext, Option.bind_eq_bind, Option.bind_some, hloop, delivered, hreply]
      unfold MemoryObject.update
      rw [Option.bind_eq_bind, Option.bind_map]
      cases Sheet.put _ _ (rangeLines load (i + 1) ranges _) with
      | none => rfl
      | some sheet' =>
          rw [← hcontent]
          rfl

/-! ## The update -/

/-- The text of the view. -/
def viewPieces (sh : Shifts) (replies : Nat → Option CStr) (s : State) : Print :=
  printAll (rangePieces sh s.props.endian s.load replies) 0 (s.rangeLst.zip s.mems) s.values

/-- The state behind an update, with the values that have been shown. -/
def State.updated (sh : Shifts) (replies : Nat → Option CStr) (s : State) : State :=
  let shown := rangeLines s.load 0 s.rangeLst {}
  { s with
    mems := delivered replies 0 s.mems
    values := (viewPieces sh replies s).values
    lineSecs := shown.secs
    lineRegs := shown.regs }

variable {replies : Nat → Option CStr} {s : State}

/-- The update prints the text of the view, if it fits. -/
theorem exec_updateText (sh : Shifts) (hheld : List.Forall₂ Held s.rangeLst s.mems)
    (hread : ∀ i range, s.rangeLst[i]? = some range →
      ∃ content, replies i = some content ∧ IsDump range.size content) :
    exec (updateText sh true replies) s =
      (Sheet.put { values := s.values } (viewPieces sh replies s) (rangeLines s.load 0 s.rangeLst {})).map
        fun sheet => (.ok (some sheet), s.updated sh replies) := by
  have hread' : ∀ k range, s.rangeLst[k]? = some range →
      ∃ content, replies (0 + k) = some content ∧ IsDump range.size content := by
    simpa only [Nat.zero_add] using hread
  unfold updateText
  rw [if_pos rfl, exec_get_bind]
  rw [showRanges_eq hheld hread']
  unfold Sheet.put viewPieces State.updated
  cases Dynarray.extend _ _ <;> rfl

/-- A text that fits is that of the sheet. -/
theorem exists_sheet (hheld : List.Forall₂ Held s.rangeLst s.mems)
    (hread : ∀ i range, s.rangeLst[i]? = some range →
      ∃ content, replies i = some content ∧ IsDump range.size content)
    (hfits : (MarkedText.text (viewPieces sh replies s).pieces).length < 2 ^ 31) :
    ∃ sheet, exec (updateText sh true replies) s = some (.ok (some sheet), s.updated sh replies) ∧
      sheet.obuf.pieces = (viewPieces sh replies s).pieces := by
  have hextend : (Dynarray.empty : Dynarray Row).extend (viewPieces sh replies s).pieces =
      some ⟨(viewPieces sh replies s).pieces, hfits⟩ := dif_pos hfits
  have hexec := exec_updateText sh hheld hread
  unfold Sheet.put at hexec
  dsimp only at hexec
  rw [hextend] at hexec
  exact ⟨_, hexec, rfl⟩

/-- What is printed of an element is part of what is printed of all. -/
theorem exists_mem_printAll {α : Type} {f : Nat → α → (BitsPtr → BitVec 64) → Print} {k j : Nat}
    {xs : List α} {x : α} {P : Piece Char Row → Prop} {values : BitsPtr → BitVec 64}
    (hx : xs[j]? = some x) (h : ∀ values, ∃ piece ∈ (f (k + j) x values).pieces, P piece) :
    ∃ piece ∈ (printAll f k xs values).pieces, P piece := by
  induction xs generalizing k j values with
  | nil => cases hx
  | cons y ys ih =>
      unfold printAll Print.andThen
      cases j with
      | zero =>
          obtain rfl := Option.some.inj hx
          obtain ⟨piece, hpiece, hP⟩ := h values
          exact ⟨piece, List.mem_append_left _ hpiece, hP⟩
      | succ j =>
          obtain ⟨piece, hpiece, hP⟩ := ih (k := k + 1) (List.getElem?_cons_succ ▸ hx)
            fun values => by
              rw [Nat.add_assoc, Nat.add_comm 1]
              exact h values
          exact ⟨piece, List.mem_append_right _ hpiece, hP⟩

/-- What is printed of all is printed of an element. -/
theorem of_mem_printAll {α : Type} {f : Nat → α → (BitsPtr → BitVec 64) → Print} {k : Nat}
    {xs : List α} {piece : Piece Char Row} {values : BitsPtr → BitVec 64}
    (h : piece ∈ (printAll f k xs values).pieces) :
    ∃ j x values', xs[j]? = some x ∧ piece ∈ (f (k + j) x values').pieces := by
  induction xs generalizing k values with
  | nil => cases h
  | cons y ys ih =>
      unfold printAll Print.andThen at h
      rcases List.mem_append.mp h with h | h
      · exact ⟨0, y, values, rfl, h⟩
      · obtain ⟨j, x, values', hx, hpiece⟩ := ih h
        rw [Nat.add_assoc, Nat.add_comm 1] at hpiece
        exact ⟨j + 1, x, values', hx, hpiece⟩

/-- The register or the heading that a row belongs to. -/
def Row.reg? : Row → Option RegisterPtr
  | .sec _ => none
  | .heading p => some p
  | .register p => some p
  | .bits p => some p.reg

/-- The rows of some bits. -/
theorem mem_fieldPieces {val : BitVec 64} {values : BitsPtr → BitVec 64} {piece : Piece Char Row}
    (h : piece ∈ (fieldPieces sh p reg val values).pieces) : piece.shows = none ∨
      ∃ i bits modified, reg.bits[i]? = some bits ∧
        piece = ⟨bitsText bits modified (sh.bitVal val bits), some (.bits ⟨p, i⟩)⟩ := by
  unfold fieldPieces at h
  split at h
  · cases h
  · rcases List.mem_append.mp h with h | h
    · obtain ⟨i, bits, values', hbits, h⟩ := of_mem_printAll h
      rw [Nat.zero_add] at h
      unfold bitsPieces at h
      rcases List.mem_append.mp h with h | h
      · split at h
        · obtain rfl := List.mem_singleton.mp h
          exact Or.inl rfl
        · cases h
      · obtain rfl := List.mem_singleton.mp h
        exact Or.inr ⟨i, bits, _, hbits, rfl⟩
    · obtain rfl := List.mem_singleton.mp h
      exact Or.inl rfl

/-- The rows of a register belong to it. -/
theorem reg?_of_mem {old cells : List (Char × Char)} {values : BitsPtr → BitVec 64}
    {piece : Piece Char Row} {row : Row}
    (h : piece ∈ (registerPieces sh endian old cells p reg values).pieces)
    (hrow : piece.shows = some row) : row.reg? = some p := by
  unfold registerPieces at h
  split at h
  · obtain rfl := List.mem_singleton.mp h
    cases hrow
    rfl
  · rcases List.mem_append.mp h with h | h
    · obtain rfl := List.mem_singleton.mp h
      cases hrow
      rfl
    · rcases mem_fieldPieces h with hnone | ⟨i, bits, modified, -, rfl⟩
      · rw [hnone] at hrow
        cases hrow
      · cases hrow
        rfl

/-- A register that is shown: its section is expanded, and it has bytes. -/
structure ShownAt (s : State) (p : RegisterPtr) (range : Range) (mem : MemoryObject)
    (reg : Register) : Prop where
  load : p.sec.load = s.load
  inList : s.rangeLst[p.sec.range]? = some range
  memory : s.mems[p.sec.range]? = some mem
  expanded : ∃ sec, range.sections[p.sec.sec]? = some sec ∧ sec.expanded = true ∧
    sec.regs[p.reg]? = some reg
  nbytes : reg.nbytes ≠ 0

/-- What is printed of a register is part of the text. -/
theorem ShownAt.exists_mem {range : Range} {mem : MemoryObject} (h : ShownAt s p range mem reg)
    {P : Piece Char Row → Prop}
    (hP : ∀ values, ∃ piece ∈ (registerPieces sh s.props.endian (pairs (mem.content.getD []))
      (pairs ((replies p.sec.range).getD [])) p reg values).pieces, P piece) :
    ∃ piece ∈ (viewPieces sh replies s).pieces, P piece := by
  obtain ⟨sec, hsec, hexpanded, hreg⟩ := h.expanded
  have hzip : (s.rangeLst.zip s.mems)[p.sec.range]? = some (range, mem) :=
    List.getElem?_zip_eq_some.mpr ⟨h.inList, h.memory⟩
  refine exists_mem_printAll hzip fun values => exists_mem_printAll hsec fun values => ?_
  have hregs : ∃ piece ∈ (printAll (fun k => registerPieces sh s.props.endian
      (pairs (mem.content.getD [])) (pairs ((replies p.sec.range).getD [])) ⟨p.sec, k⟩) 0
      (if sec.expanded then sec.regs else []) values).pieces, P piece := by
    rw [if_pos hexpanded]
    refine exists_mem_printAll hreg fun values => ?_
    rw [Nat.zero_add]
    exact hP values
  obtain ⟨piece, hpiece, hpart⟩ := hregs
  obtain ⟨⟨load, range, sec⟩, reg⟩ := p
  obtain rfl : load = s.load := h.load
  rw [Nat.zero_add, Nat.zero_add]
  exact ⟨piece, List.mem_append_left _ (List.mem_append_right _ hpiece), hpart⟩

/-- What the text shows of a register has been printed of it. -/
theorem ShownAt.of_mem {range : Range} {mem : MemoryObject} (h : ShownAt s p range mem reg)
    {piece : Piece Char Row} {row : Row} (hpiece : piece ∈ (viewPieces sh replies s).pieces)
    (hrow : piece.shows = some row) (hreg : row.reg? = some p) :
    ∃ values, piece ∈ (registerPieces sh s.props.endian (pairs (mem.content.getD []))
      (pairs ((replies p.sec.range).getD [])) p reg values).pieces := by
  obtain ⟨i, ⟨range', mem'⟩, values, hzip, hpiece⟩ := of_mem_printAll hpiece
  obtain ⟨j, sec', values, hsec', hpiece⟩ := of_mem_printAll hpiece
  obtain ⟨hrange, hmem⟩ := List.getElem?_zip_eq_some.mp hzip
  unfold sectionPieces at hpiece
  rcases List.mem_append.mp hpiece with hpiece | hpiece
  · rcases List.mem_append.mp hpiece with hpiece | hpiece
    · obtain rfl := List.mem_singleton.mp hpiece
      cases hrow
      cases hreg
    · obtain ⟨k, reg', values, hreg', hpiece⟩ := of_mem_printAll hpiece
      obtain rfl := Option.some.inj (hreg.symm.trans (reg?_of_mem hpiece hrow))
      simp only [Nat.zero_add] at hpiece h hrange hmem
      obtain ⟨sec, hsec, hexpanded, hregs⟩ := h.expanded
      obtain rfl := Option.some.inj (hrange.symm.trans h.inList)
      obtain rfl := Option.some.inj (hmem.symm.trans h.memory)
      obtain rfl := Option.some.inj (hsec'.symm.trans hsec)
      rw [if_pos hexpanded] at hreg'
      obtain rfl := Option.some.inj (hreg'.symm.trans hregs)
      exact ⟨values, by simpa only [Nat.zero_add] using hpiece⟩
  · obtain rfl := List.mem_singleton.mp hpiece
    cases hrow

theorem getElem?_delivered {i k : Nat} {mems : List MemoryObject} :
    (delivered replies i mems)[k]? = (mems[k]?).map fun mem =>
      mem.update ((replies (i + k)).map fun content => { content := some content }) := by
  induction mems generalizing i k with
  | nil => rfl
  | cons mem mems ih =>
      cases k with
      | zero => rfl
      | succ k =>
          rw [delivered, List.getElem?_cons_succ, List.getElem?_cons_succ, ih, Nat.add_assoc,
            Nat.add_comm 1]

/-- Behind an update whose text fits, each register that is shown has a row with its own bytes, in its
own order and with a mark if and only if they have changed, and the memory of each range is as it has
been read and as it was before.  A text that does not fit is not printed. -/
theorem registers_shown (sh : Shifts) (hheld : List.Forall₂ Held s.rangeLst s.mems)
    (hread : ∀ i range, s.rangeLst[i]? = some range →
      ∃ content, replies i = some content ∧ IsDump range.size content) :
    ((MarkedText.text (viewPieces sh replies s).pieces).length < 2 ^ 31 → ∃ sheet t,
      exec (updateText sh true replies) s = some (.ok (some sheet), t) ∧
      (∀ p range mem reg, ShownAt s p range mem reg → ∃ piece ∈ sheet.obuf.pieces,
        piece.shows = some (.register p) ∧
        piece.text = registerText s.props.endian reg (pairs (mem.content.getD []))
          (pairs ((replies p.sec.range).getD []))) ∧
      ∀ i mem, s.mems[i]? = some mem → ∃ mem', t.mems[i]? = some mem' ∧
        mem'.content = replies i ∧ mem'.contentOld = mem.content) ∧
    (2 ^ 31 ≤ (MarkedText.text (viewPieces sh replies s).pieces).length →
      exec (updateText sh true replies) s = none) := by
  have hexec := exec_updateText sh hheld hread
  constructor
  · intro hfits
    obtain ⟨sheet, hsheet, hpieces⟩ := exists_sheet hheld hread hfits
    refine ⟨sheet, _, hsheet, fun p range mem reg hshown => ?_, fun i mem hmem => ?_⟩
    · rw [hpieces]
      refine hshown.exists_mem fun values => ?_
      unfold registerPieces
      rw [if_neg hshown.nbytes]
      exact ⟨_, List.mem_append_left _ List.mem_cons_self, rfl, rfl⟩
    · have hlt : i < s.rangeLst.length := by
        rw [hheld.length_eq]
        exact (List.getElem?_eq_some_iff.mp hmem).1
      obtain ⟨content, hreply, -⟩ := hread i _ (List.getElem?_eq_getElem hlt)
      have hupdated : (delivered replies 0 s.mems)[i]? =
          some (mem.update (some { content := some content })) := by
        rw [getElem?_delivered, hmem, Nat.zero_add, hreply]
        rfl
      exact ⟨_, hupdated, hreply.symm, rfl⟩
  · intro hlong
    have hextend : (Dynarray.empty : Dynarray Row).extend (viewPieces sh replies s).pieces = none :=
      dif_neg (Nat.not_lt.mpr hlong)
    unfold Sheet.put at hexec
    dsimp only at hexec
    rw [hextend] at hexec
    exact hexec

/-- Two registers that overlap, of which one is little-endian; the last byte changes. -/
private def overlapping : State :=
  { rangeLst := [{ base := 0x40000000, size := 4, mem := some [], sections := [{
      name := "A".toList, expanded := true, regs := [
        ⟨some "R".toList, none, 0, 4, { endLittle := true }, []⟩,
        ⟨some "S".toList, none, 1, 2, {}, [⟨"low".toList, 0, 4⟩]⟩] }] }]
    mems := [{ begin := none, content := some "0a0b0c0d".toList, length := 4 }] }

private def overlappingReply : Nat → Option CStr := fun _ => some "0a0b0c0e".toList

/-- The bytes that change are marked, and both registers are shown from the same memory. -/
theorem overlapping_registers_shown : ∃ sheet t,
    exec (updateText ⟨fun _ _ => 0, fun _ _ => 0⟩ true overlappingReply) overlapping =
      some (.ok (some sheet), t) ∧
    (∃ piece ∈ sheet.obuf.pieces, piece.shows = some (.register ⟨⟨0, 0, 0⟩, 0⟩) ∧
      piece.text = "  \xc2\xb4h2R`h2 = \xc2\xb4c0e0c0b0a`c\n".toList) ∧
    (∃ piece ∈ sheet.obuf.pieces, piece.shows = some (.register ⟨⟨0, 0, 0⟩, 1⟩) ∧
      piece.text = "  \xc2\xb4h2S`h2 = 0b0c\n".toList) ∧
    ∃ mem, t.mems[0]? = some mem ∧ mem.content = some "0a0b0c0e".toList ∧
      mem.contentOld = some "0a0b0c0d".toList := by
  have hheld : List.Forall₂ Held overlapping.rangeLst overlapping.mems := by
    refine .cons ⟨?_, _, rfl, isDump_of_pairs (by decide) ⟨by decide, by decide, by decide⟩⟩ .nil
    unfold Range.All Register.Lies
    decide
  have hread : ∀ i range, overlapping.rangeLst[i]? = some range →
      ∃ content, overlappingReply i = some content ∧ IsDump range.size content := by
    intro i range hrange
    obtain rfl := List.mem_singleton.mp (List.mem_of_getElem? hrange)
    exact ⟨_, rfl, isDump_of_pairs (by decide) ⟨by decide, by decide, by decide⟩⟩
  obtain ⟨sheet, t, hexec, hrows, hmems⟩ :=
    (registers_shown ⟨fun _ _ => 0, fun _ _ => 0⟩ hheld hread).1 (by decide +kernel)
  have hfirst := hrows ⟨⟨0, 0, 0⟩, 0⟩ _ _ _ ⟨rfl, rfl, rfl, ⟨_, rfl, rfl, rfl⟩, by decide⟩
  have hsecond := hrows ⟨⟨0, 0, 0⟩, 1⟩ _ _ _ ⟨rfl, rfl, rfl, ⟨_, rfl, rfl, rfl⟩, by decide⟩
  refine ⟨sheet, t, hexec, ?_, ?_, hmems 0 _ rfl⟩
  · obtain ⟨piece, hpiece, hshows, htext⟩ := hfirst
    exact ⟨piece, hpiece, hshows, htext.trans (by decide +kernel)⟩
  · obtain ⟨piece, hpiece, hshows, htext⟩ := hsecond
    exact ⟨piece, hpiece, hshows, htext.trans (by decide +kernel)⟩

end Vimgdb.Per.View
