import Mathlib.Data.List.TakeWhile
import Vimgdb.User.PerFile

/-!
# Peripheral files as they are written

The numbers of a file with their digits, before the lexer makes values of them.

* `Number`, `Spelled`: a number with its digits, and the tokens with such numbers.
* `WrittenRange`, `WrittenFile`: what a file says.
* `written`: the file that a text is; the grammar is that of `perparse`.
* `perparse_eq`: `perparse` reads the numbers of it.
-/

namespace Vimgdb.Per

open Flex Lexing

/-! ## Numbers -/

/-- A number as it is written: its digits, in base 16 behind a `0x`. -/
structure Number where
  hex : Bool
  digits : CStr
  ok : ∀ c ∈ digits, (digitValue (if hex then 16 else 10) c).isSome
  deriving DecidableEq

/-- The number that is meant. -/
def Number.value (n : Number) : Nat := readDigits (if n.hex then 16 else 10) 0 n.digits

/-- The value that the lexer makes of it. -/
def Number.read (n : Number) : BitVec 64 :=
  if n.hex then strtollHex ('0' :: 'x' :: n.digits) else (atoi n.digits).signExtend 64

/-- The characters of a number. -/
def Number.text (n : Number) : CStr := if n.hex then '0' :: 'x' :: n.digits else n.digits

/-- The digits at the front of a text. -/
def digitsOf (base : Nat) (s : CStr) : CStr := s.takeWhile fun c => (digitValue base c).isSome

theorem isSome_of_mem_digitsOf {base : Nat} {s : CStr} :
    ∀ c ∈ digitsOf base s, (digitValue base c).isSome := fun _ hc =>
  List.mem_takeWhile_imp (p := fun c => (digitValue base c).isSome) hc

theorem digitsOf_eq {base : Nat} {s : CStr} (h : ∀ c ∈ s, (digitValue base c).isSome) :
    digitsOf base s = s := List.takeWhile_eq_self_iff.mpr h

/-- The number at the front of a text. -/
def numberOf : CStr → Number
  | '0' :: 'x' :: s => ⟨true, digitsOf 16 s, isSome_of_mem_digitsOf⟩
  | s => ⟨false, digitsOf 10 s, isSome_of_mem_digitsOf⟩

/-! ## Tokens -/

/-- The tokens, with the digits of numbers. -/
inductive Spelled
  | eof
  | word (w : Word)
  | int (n : Number)
  | string (s : CStr)
  | chr (c : Char)
  deriving DecidableEq

/-- A token with the text of its number. -/
def spell (text : CStr) : Tok → Spelled
  | .eof => .eof
  | .word w => .word w
  | .int _ => .int (numberOf text)
  | .string s => .string s
  | .chr c => .chr c

/-- The token with the value of its number. -/
def Spelled.tok : Spelled → Tok
  | .eof => .eof
  | .word w => .word w
  | .int n => .int n.read
  | .string s => .string s
  | .chr c => .chr c

/-- The tokens of a text up to the end of the input, with the digits of numbers. -/
def spelledTokens (text : CStr) : List Spelled :=
  ((lex (rules.map (Rule.relabel spell)) ⟨0, .initial, true, text⟩).1.map Prod.snd).takeWhile (· ≠ .eof)

/-- The characters of a class are digits, if those are of which there are few. -/
theorem isSome_of_inClass {base : Nat} {ranges : List (Char × Char)} {c : Char}
    (hlt : ∀ p ∈ ranges, p.2.toNat < 128)
    (hall : ∀ n < 128, Re.inClass false ranges (Char.ofNat n) = true →
      (digitValue base (Char.ofNat n)).isSome) (h : Re.inClass false ranges c = true) :
    (digitValue base c).isSome := by
  have hmem : ∃ p ∈ ranges, p.1 ≤ c ∧ c ≤ p.2 := by simpa [Re.inClass] using h
  obtain ⟨p, hp, -, hle⟩ := hmem
  have hself := hall c.toNat (Nat.lt_of_le_of_lt hle (hlt p hp))
  rw [Char.ofNat_toNat] at hself
  exact hself h

theorem isSome_of_decimal {w : CStr} (h : w ∈ (Re.star (.cls false [('0', '9')])).lang) :
    ∀ c ∈ w, (digitValue 10 c).isSome := fun c hc =>
  isSome_of_inClass (by decide) (by decide +kernel) ((Re.mem_lang_star_cls _ _ _).mp h c hc)

theorem isSome_of_hex {w : CStr}
    (h : w ∈ (Re.star (.cls false [('0', '9'), ('a', 'f'), ('A', 'F')])).lang) :
    ∀ c ∈ w, (digitValue 16 c).isSome := fun c hc =>
  isSome_of_inClass (by decide) (by decide +kernel) ((Re.mem_lang_star_cls _ _ _).mp h c hc)

/-- A text of digits is the number of its digits, and read as the lexer reads it. -/
theorem read_numberOf_decimal {text : CStr} (h : ∀ c ∈ text, (digitValue 10 c).isSome) :
    (numberOf text).read = (atoi text).signExtend 64 := by
  have hx : ¬ (digitValue 10 'x').isSome := by decide
  unfold numberOf
  split
  · exact absurd (h 'x' (by simp)) hx
  · unfold Number.read
    dsimp only
    rw [if_neg Bool.false_ne_true, digitsOf_eq h]

theorem read_numberOf_hex {s : CStr} (h : ∀ c ∈ s, (digitValue 16 c).isSome) :
    (numberOf ('0' :: 'x' :: s)).read = strtollHex ('0' :: 'x' :: s) := by
  show strtollHex ('0' :: 'x' :: digitsOf 16 s) = _
  rw [digitsOf_eq h]

/-- The number of a token is that of its text. -/
theorem tok_spell (c : Config Start) (r : Rule Start Tok) (n : Nat) (t : Tok)
    (hsel : select c rules = some (r, n)) (ht : (r.act (c.rest.take n)).1 = some t) :
    (spell (c.rest.take n) t).tok = t := by
  have hlang := select_mem_lang hsel
  generalize c.rest.take n = text at ht hlang
  cases t with
  | eof => rfl
  | word w => rfl
  | string s => rfl
  | chr d => rfl
  | int v =>
      show Tok.int (numberOf text).read = Tok.int v
      rcases List.mem_append.mp (select_spec hsel).1 with hword | hgeneral
      · obtain ⟨p, -, rfl⟩ := List.mem_map.mp hword
        cases ht
      · have hchr : firstChr text ≠ some (.int v) := by
          unfold firstChr
          cases text.head? <;> simp [charTok_ne_int]
        unfold generalRules at hgeneral
        simp only [List.mem_cons, List.not_mem_nil, or_false] at hgeneral
        rcases hgeneral with rfl | rfl | rfl | rfl | rfl | rfl | rfl | rfl | rfl | rfl | rfl | rfl |
          rfl | rfl
        case inr.inr.inr.inr.inl =>
          cases ht
          rw [read_numberOf_decimal (isSome_of_decimal hlang)]
        case inr.inr.inr.inr.inr.inl =>
          cases ht
          obtain ⟨u, hu, w, hw, rfl⟩ := (Re.mem_lang_seq _ _ _).mp hlang
          obtain rfl := (Re.mem_lang_lit _ _).mp hu
          exact congrArg Tok.int (read_numberOf_hex (isSome_of_hex hw))
        all_goals first | exact absurd ht hchr | cases ht

/-- The tokens are those of the file as it is written. -/
theorem tokens_eq (text : CStr) : tokens text = (spelledTokens text).map Spelled.tok := by
  have heof : (fun t => decide (t ≠ Tok.eof)) ∘ Spelled.tok = fun t => decide (t ≠ .eof) := by
    funext t
    cases t <;> rfl
  unfold tokens spelledTokens
  rw [← lex_relabel tok_spell, ← heof, ← List.takeWhile_map, List.map_map, List.map_map]
  rfl

/-! ## What a file says -/

/-- `bits` -/
structure WrittenBits where
  name : CStr
  idx : Number
  nbits : Number
  deriving DecidableEq

/-- `register`, `emptyline` or `heading` -/
inductive Entry
  | register (name desc : CStr) (offset nbytes : Number) (opt : RegOpt) (bits : List WrittenBits)
  | emptyline
  | headline (name : CStr)
  deriving DecidableEq

/-- `section` -/
structure WrittenSection where
  name : CStr
  entries : List Entry
  deriving DecidableEq

/-- `range` -/
structure WrittenRange where
  base : Number
  size : Number
  sections : List WrittenSection
  deriving DecidableEq

/-- A file: its ranges, its properties, and whether it is well formed. -/
structure WrittenFile where
  ranges : List WrittenRange
  props : Props
  accepted : Bool
  deriving DecidableEq

/-- The numbers are read into fields of 32 or 64 bits. -/
def WrittenBits.read (b : WrittenBits) : Bits :=
  { name := b.name, idx := b.idx.read.setWidth 32, nbits := b.nbits.read.setWidth 32 }

def Entry.read : Entry → Register
  | .register name desc offset nbytes opt bits => ⟨some name, some desc, offset.read.setWidth 32,
      nbytes.read.setWidth 32, opt, bits.map WrittenBits.read⟩
  | .emptyline => ⟨none, none, 0, 0, {}, []⟩
  | .headline name => ⟨some name, none, 0, 0, {}, []⟩

def WrittenSection.read (s : WrittenSection) : Section :=
  { name := s.name, regs := s.entries.map Entry.read }

def WrittenRange.read (r : WrittenRange) : Range :=
  { base := r.base.read, size := r.size.read.setWidth 32, sections := r.sections.map WrittenSection.read }

def WrittenFile.read (f : WrittenFile) : File := ⟨f.ranges.map WrittenRange.read, f.props, f.accepted⟩

/-! ## The grammar -/

/-- A nonterminal on tokens with the digits of numbers. -/
abbrev W (α : Type) := StateT (List Spelled) Option α

namespace Written

/-- A character that stands for itself. -/
def chr (c : Char) : W Unit := fun toks =>
  match toks with
  | t :: ts => if t = .chr c then some ((), ts) else none
  | [] => none

/-- `INT` -/
def int : W Number := fun toks =>
  match toks with
  | .int n :: ts => some (n, ts)
  | _ => none

/-- `STRING` -/
def string : W CStr := fun toks =>
  match toks with
  | .string s :: ts => some (s, ts)
  | _ => none

/-- `bits` -/
def bitsFuel : Nat → List WrittenBits → W (List WrittenBits)
  | 0, _ => fun _ => none
  | fuel + 1, bits => fun toks =>
      match toks with
      | .word .bits :: ts =>
          (do
            let name ← string
            let idx ← int
            let nbits ← int
            bitsFuel fuel (bits ++ [⟨name, idx, nbits⟩]) : W (List WrittenBits)) ts
      | ts => some (bits, ts)

/-- `register-opt` -/
def registerOpt (opt : RegOpt) : List Spelled → RegOpt × List Spelled
  | .word .endianLittle :: ts => registerOpt { opt with endLittle := true } ts
  | .word .endianBig :: ts => registerOpt { opt with endBig := true } ts
  | ts => (opt, ts)

/-- `register` -/
def registerFuel : Nat → List Entry → W (List Entry)
  | 0, _ => fun _ => none
  | fuel + 1, entries => fun toks =>
      match toks with
      | .word .register :: ts =>
          (do
            let name ← string
            let desc ← string
            let offset ← int
            let nbytes ← int
            let opt ← fun ts => some (registerOpt {} ts)
            chr '{'
            let bits ← bitsFuel (fuel + 1) []
            chr '}'
            registerFuel fuel (entries ++ [.register name desc offset nbytes opt bits]) :
            W (List Entry)) ts
      | .word .emptyline :: ts => registerFuel fuel (entries ++ [.emptyline]) ts
      | .word .headline :: ts =>
          (do
            let name ← string
            registerFuel fuel (entries ++ [.headline name]) : W (List Entry)) ts
      | ts => some (entries, ts)

/-- `section` -/
def sectionFuel : Nat → List WrittenSection → W (List WrittenSection)
  | 0, _ => fun _ => none
  | fuel + 1, sections => fun toks =>
      match toks with
      | .word .section_ :: ts =>
          (do
            let name ← string
            chr '{'
            let entries ← registerFuel (fuel + 1) []
            chr '}'
            sectionFuel fuel (sections ++ [{ name, entries }]) : W (List WrittenSection)) ts
      | ts => some (sections, ts)

/-- `range`, behind its first token. -/
def range : W WrittenRange := fun toks =>
  (do
    let base ← int
    let size ← int
    chr '{'
    let sections ← sectionFuel (toks.length + 1) []
    chr '}'
    return { base, size, sections } : W WrittenRange) toks

/-- `start` -/
def parseFrom : Nat → List WrittenRange → Props → List Spelled → WrittenFile
  | 0, ranges, props, _ => ⟨ranges, props, false⟩
  | fuel + 1, ranges, props, toks =>
      match toks with
      | [] => ⟨ranges, props, true⟩
      | .word .property :: .word .endianLittle :: ts => parseFrom fuel ranges { endian := .little } ts
      | .word .property :: .word .endianBig :: ts => parseFrom fuel ranges { endian := .big } ts
      | .word .range :: ts =>
          match range ts with
          | some (r, ts) => parseFrom fuel (ranges ++ [r]) props ts
          | none => ⟨ranges, props, false⟩
      | _ => ⟨ranges, props, false⟩

end Written

/-- The file that a text is. -/
def written (text : CStr) : WrittenFile :=
  let toks := spelledTokens text
  Written.parseFrom (toks.length + 1) [] {} toks

/-! ## Reading it -/

/-- A nonterminal of the parser reads the values of what is written. -/
def Reads {α β : Type} (f : α → β) (w : W α) (p : P β) : Prop := ∀ toks,
  p (toks.map Spelled.tok) = (w toks).map fun r => (f r.1, r.2.map Spelled.tok)

variable {α β γ δ : Type} {f : α → β} {g : γ → δ}

theorem reads_bind {w : W α} {p : P β} {k : α → W γ} {k' : β → P δ} (h : Reads f w p)
    (hk : ∀ a, Reads g (k a) (k' (f a))) : Reads g (w >>= k) (p >>= k') := by
  intro toks
  show (p (toks.map Spelled.tok)).bind (fun r => k' r.1 r.2) = ((w toks).bind fun r => k r.1 r.2).map _
  rw [h toks]
  cases w toks with
  | none => rfl
  | some r => exact hk r.1 r.2

theorem reads_pure {a : α} : Reads f (pure a) (pure (f a)) := fun _ => rfl

theorem reads_chr (c : Char) : Reads id (Written.chr c) (chr c) := by
  intro toks
  cases toks with
  | nil => rfl
  | cons t ts =>
      have htok : t.tok = .chr c ↔ t = .chr c := by cases t <;> simp [Spelled.tok]
      unfold Written.chr chr
      rw [List.map_cons]
      simp only [htok]
      split <;> rfl

theorem reads_int : Reads Number.read Written.int int := by
  intro toks
  cases toks with
  | nil => rfl
  | cons t ts => cases t <;> rfl

theorem reads_string : Reads id Written.string string := by
  intro toks
  cases toks with
  | nil => rfl
  | cons t ts => cases t <;> rfl

theorem reads_registerOpt (opt : RegOpt) :
    Reads id (fun ts => some (Written.registerOpt opt ts)) (fun ts => some (registerOpt opt ts)) := by
  intro toks
  induction toks generalizing opt with
  | nil => rfl
  | cons t ts ih =>
      cases t with
      | word w =>
          cases w with
          | endianLittle => exact ih _
          | endianBig => exact ih _
          | _ => rfl
      | _ => rfl

theorem reads_bitsFuel (fuel : Nat) (bits : List WrittenBits) :
    Reads (List.map WrittenBits.read) (Written.bitsFuel fuel bits)
      (bitsFuel fuel (bits.map WrittenBits.read)) := by
  induction fuel generalizing bits with
  | zero => exact fun _ => rfl
  | succ fuel ih =>
      intro toks
      cases toks with
      | nil => rfl
      | cons t ts =>
          cases t with
          | word w =>
              cases w with
              | bits =>
                  refine reads_bind reads_string (fun name => ?_) ts
                  refine reads_bind reads_int fun idx => reads_bind reads_int fun nbits => ?_
                  have h := ih (bits ++ [⟨name, idx, nbits⟩])
                  rw [List.map_append] at h
                  exact h
              | _ => rfl
          | _ => rfl

theorem reads_registerFuel (fuel : Nat) (entries : List Entry) :
    Reads (List.map Entry.read) (Written.registerFuel fuel entries)
      (registerFuel fuel (entries.map Entry.read)) := by
  induction fuel generalizing entries with
  | zero => exact fun _ => rfl
  | succ fuel ih =>
      have hone : ∀ e, Reads (List.map Entry.read) (Written.registerFuel fuel (entries ++ [e]))
          (registerFuel fuel (entries.map Entry.read ++ [e.read])) := by
        intro e
        have h := ih (entries ++ [e])
        rw [List.map_append] at h
        exact h
      intro toks
      cases toks with
      | nil => rfl
      | cons t ts =>
          cases t with
          | word w =>
              cases w with
              | register =>
                  refine reads_bind reads_string (fun name => ?_) ts
                  refine reads_bind reads_string fun desc => ?_
                  refine reads_bind reads_int fun offset => reads_bind reads_int fun nbytes => ?_
                  refine reads_bind (reads_registerOpt {}) fun opt => ?_
                  refine reads_bind (reads_chr _) fun _ => ?_
                  refine reads_bind (reads_bitsFuel _ []) fun bits => ?_
                  exact reads_bind (reads_chr _) fun _ => hone _
              | emptyline => exact hone .emptyline ts
              | headline => exact reads_bind reads_string (fun name => hone _) ts
              | _ => rfl
          | _ => rfl

theorem reads_sectionFuel (fuel : Nat) (sections : List WrittenSection) :
    Reads (List.map WrittenSection.read) (Written.sectionFuel fuel sections)
      (sectionFuel fuel (sections.map WrittenSection.read)) := by
  induction fuel generalizing sections with
  | zero => exact fun _ => rfl
  | succ fuel ih =>
      intro toks
      cases toks with
      | nil => rfl
      | cons t ts =>
          cases t with
          | word w =>
              cases w with
              | section_ =>
                  refine reads_bind reads_string (fun name => ?_) ts
                  refine reads_bind (reads_chr _) fun _ => ?_
                  refine reads_bind (reads_registerFuel _ []) fun entries => ?_
                  refine reads_bind (reads_chr _) fun _ => ?_
                  have h := ih (sections ++ [⟨name, entries⟩])
                  rw [List.map_append] at h
                  exact h
              | _ => rfl
          | _ => rfl

theorem reads_range : Reads WrittenRange.read Written.range range := by
  intro toks
  have hlen : (toks.map Spelled.tok).length = toks.length := List.length_map _
  unfold range Written.range
  rw [hlen]
  refine reads_bind reads_int (fun base => ?_) toks
  refine reads_bind reads_int fun size => reads_bind (reads_chr _) fun _ => ?_
  refine reads_bind (reads_sectionFuel _ []) fun sections => ?_
  exact reads_bind (reads_chr _) fun _ => reads_pure (a := (⟨base, size, sections⟩ : WrittenRange))

theorem read_parseFrom (fuel : Nat) (ranges : List WrittenRange) (props : Props)
    (toks : List Spelled) :
    parseFrom fuel (ranges.map WrittenRange.read) props (toks.map Spelled.tok) =
      (Written.parseFrom fuel ranges props toks).read := by
  induction fuel generalizing ranges props toks with
  | zero => rfl
  | succ fuel ih =>
      cases toks with
      | nil => rfl
      | cons t ts =>
          cases t with
          | word w =>
              cases w with
              | property =>
                  cases ts with
                  | nil => rfl
                  | cons t' ts =>
                      cases t' with
                      | word w' =>
                          cases w' with
                          | endianLittle => exact ih _ _ _
                          | endianBig => exact ih _ _ _
                          | _ => rfl
                      | _ => rfl
              | range =>
                  have hread := reads_range ts
                  rw [List.map_cons, Spelled.tok, parseFrom, Written.parseFrom, hread]
                  cases Written.range ts with
                  | none => rfl
                  | some r =>
                      have h := ih (ranges ++ [r.1]) props r.2
                      rw [List.map_append] at h
                      exact h
              | _ => rfl
          | _ => rfl

/-- `perparse` reads the numbers of the file that a text is. -/
theorem perparse_eq (text : CStr) : perparse text = (written text).read := by
  unfold perparse written
  dsimp only
  rw [tokens_eq, List.length_map]
  exact read_parseFrom _ [] {} _

end Vimgdb.Per
