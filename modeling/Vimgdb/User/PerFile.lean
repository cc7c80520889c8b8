import Vimgdb.Lexing.Per
import Vimgdb.User.PerTypes

/-!
# The grammar of peripheral files

The rules of `per.y`.  Every choice is decided by the next token, so each nonterminal is a function that
reads tokens from the front.

* `range`: a range with its sections.
* `parseFrom`: the ranges of a file.  There is no error rule, and a range is in the list as soon as its
  last brace is read.
* `perparse`: the parser on a text.
* `perparse_eq_nil_iff`: the texts of which no range gets into the list.
-/

namespace Vimgdb.Per

open Flex

/-- A nonterminal: it reads a value from the front of the tokens. -/
abbrev P (α : Type) := StateT (List Tok) Option α

/-! ## Tokens -/

/-- A character that stands for itself. -/
def chr (c : Char) : P Unit := fun toks =>
  match toks with
  | t :: ts => if t = .chr c then some ((), ts) else none
  | [] => none

/-- `INT` -/
def int : P (BitVec 64) := fun toks =>
  match toks with
  | .int i :: ts => some (i, ts)
  | _ => none

/-- `STRING` -/
def string : P CStr := fun toks =>
  match toks with
  | .string s :: ts => some (s, ts)
  | _ => none

/-! ## Lists -/

/-- `bits`.  Each entry takes a token, so `fuel` need not exceed their number. -/
def bitsFuel : Nat → List Bits → P (List Bits)
  | 0, _ => fun _ => none
  | fuel + 1, bits => fun toks =>
      match toks with
      | .word .bits :: ts =>
          (do
            let name ← string
            let idx ← int
            let nbits ← int
            bitsFuel fuel (bits ++ [{ name, idx := idx.setWidth 32, nbits := nbits.setWidth 32 }]) :
            P (List Bits)) ts
      | ts => some (bits, ts)

/-- `register-opt` -/
def registerOpt (opt : RegOpt) : List Tok → RegOpt × List Tok
  | .word .endianLittle :: ts => registerOpt { opt with endLittle := true } ts
  | .word .endianBig :: ts => registerOpt { opt with endBig := true } ts
  | ts => (opt, ts)

/-- `register` -/
def registerFuel : Nat → List Register → P (List Register)
  | 0, _ => fun _ => none
  | fuel + 1, regs => fun toks =>
      match toks with
      | .word .register :: ts =>
          (do
            let name ← string
            let desc ← string
            let offset ← int
            let nbytes ← int
            let opt ← fun ts => some (registerOpt {} ts)
            chr '{'
            let bits ← bitsFuel (fuel + 1) []
            chr '}'
            registerFuel fuel
              (regs ++ [⟨some name, some desc, offset.setWidth 32, nbytes.setWidth 32, opt, bits⟩]) :
            P (List Register)) ts
      | .word .emptyline :: ts =>
          registerFuel fuel (regs ++ [⟨none, none, 0, 0, {}, []⟩]) ts
      | .word .headline :: ts =>
          (do
            let name ← string
            registerFuel fuel (regs ++ [⟨some name, none, 0, 0, {}, []⟩]) : P (List Register)) ts
      | ts => some (regs, ts)

/-- `section` -/
def sectionFuel : Nat → List Section → P (List Section)
  | 0, _ => fun _ => none
  | fuel + 1, sections => fun toks =>
      match toks with
      | .word .section_ :: ts =>
          (do
            let name ← string
            chr '{'
            let regs ← registerFuel (fuel + 1) []
            chr '}'
            sectionFuel fuel (sections ++ [{ name, regs }]) : P (List Section)) ts
      | ts => some (sections, ts)

/-- `range`, behind its first token. -/
def range : P Range := fun toks =>
  (do
    let base ← int
    let size ← int
    chr '{'
    let sections ← sectionFuel (toks.length + 1) []
    chr '}'
    return { base, size := size.setWidth 32, sections } : P Range) toks

/-! ## Files -/

/-- What the parser leaves: the list, the properties, and whether 0 is returned. -/
structure File where
  ranges : List Range
  props : Props
  accepted : Bool
  deriving DecidableEq

/-- `start`: the ranges and properties so far, and the rest of the tokens. -/
def parseFrom : Nat → List Range → Props → List Tok → File
  | 0, ranges, props, _ => ⟨ranges, props, false⟩
  | fuel + 1, ranges, props, toks =>
      match toks with
      | [] => ⟨ranges, props, true⟩
      | .word .property :: .word .endianLittle :: ts => parseFrom fuel ranges { endian := .little } ts
      | .word .property :: .word .endianBig :: ts => parseFrom fuel ranges { endian := .big } ts
      | .word .range :: ts =>
          match range ts with
          | some (r, ts) => parseFrom fuel (ranges ++ [r]) props ts
          | none => ⟨ranges, props, false⟩
      | _ => ⟨ranges, props, false⟩

/-- The tokens of a text that the parser reads, up to the end of the input. -/
def tokens (text : CStr) : List Tok :=
  ((lex rules ⟨0, .initial, true, text⟩).1.map Prod.snd).takeWhile (· ≠ .eof)

/-- `perparse` -/
def perparse (text : CStr) : File :=
  let toks := tokens text
  parseFrom (toks.length + 1) [] {} toks

example : ((perparse ("property little-endian // all\nrange 0x10 8\x7b section \"A\"\x7b\n" ++
    "register \"R1\" \"\" 0 2 big-endian \x7b bits \"B\" 3 1 \x7d\nemptyline \x7d\x7d\nrange 1").toList)) =
    ⟨[{ base := 0x10, size := 8, sections := [{ name := ['A'], regs :=
      [⟨some "R1".toList, some [], 0, 2, { endBig := true }, [⟨['B'], 3, 1⟩]⟩,
       ⟨none, none, 0, 0, {}, []⟩] }] }], { endian := .little }, false⟩ := by decide +kernel

example : (perparse "range 1 8\x7b\x7d é range".toList).accepted = true := by decide +kernel

/-! ## What is in the list -/

/-- The tokens begin with a complete range, but for properties in front of it. -/
def startsWithRange : List Tok → Bool
  | .word .property :: .word .endianLittle :: ts => startsWithRange ts
  | .word .property :: .word .endianBig :: ts => startsWithRange ts
  | .word .range :: ts => (range ts).isSome
  | _ => false

/-- A new range has no memory. -/
theorem mem_of_range {toks ts : List Tok} {r : Range} (h : range toks = some (r, ts)) :
    r.mem = none := by
  unfold range at h
  simp only [StateT.bind, bind, Option.bind_eq_some_iff] at h
  obtain ⟨_, _, _, _, _, _, _, _, _, _, heq⟩ := h
  cases heq
  rfl

/-- The ranges of a file have no memory. -/
theorem mem_of_mem_parseFrom {fuel : Nat} {ranges : List Range} {props : Props} {toks : List Tok}
    (h : ∀ r ∈ ranges, r.mem = none) :
    ∀ r ∈ (parseFrom fuel ranges props toks).ranges, r.mem = none := by
  fun_induction parseFrom fuel ranges props toks with
  | case1 | case2 => exact h
  | case3 _ _ _ _ ih | case4 _ _ _ _ ih => exact ih h
  | case5 _ _ _ _ r _ hr ih =>
      refine ih fun r' hr' => ?_
      rcases List.mem_append.mp hr' with hr' | hr'
      · exact h r' hr'
      · rw [List.mem_singleton.mp hr']
        exact mem_of_range hr
  | case6 | case7 => exact h

/-- What is in the list stays there. -/
theorem parseFrom_ne_nil {fuel : Nat} {ranges : List Range} {props : Props} {toks : List Tok}
    (h : ranges ≠ []) : (parseFrom fuel ranges props toks).ranges ≠ [] := by
  fun_induction parseFrom fuel ranges props toks with
  | case1 | case2 => exact h
  | case3 _ _ _ _ ih | case4 _ _ _ _ ih => exact ih h
  | case5 _ _ _ _ r _ hr ih => exact ih (List.append_ne_nil_of_left_ne_nil h _)
  | case6 | case7 => exact h

/-- Some range is in the list if and only if a complete one is the first thing but for properties. -/
theorem parseFrom_eq_nil_iff {fuel : Nat} {props : Props} {toks : List Tok}
    (hfuel : toks.length < fuel) :
    (parseFrom fuel [] props toks).ranges = [] ↔ startsWithRange toks = false := by
  induction fuel generalizing props toks with
  | zero => omega
  | succ fuel ih =>
      unfold parseFrom
      split
      · exact iff_of_true rfl rfl
      · rw [startsWithRange]
        exact ih (by simp only [List.length_cons] at hfuel; omega)
      · rw [startsWithRange]
        exact ih (by simp only [List.length_cons] at hfuel; omega)
      · next ts =>
        rw [startsWithRange]
        cases range ts with
        | none => exact iff_of_true rfl rfl
        | some r => exact iff_of_false (parseFrom_ne_nil (List.cons_ne_nil _ _)) nofun
      · next hnil hlittle hbig hrange =>
        refine iff_of_true rfl ?_
        unfold startsWithRange
        split
        · exact absurd rfl (hlittle _)
        · exact absurd rfl (hbig _)
        · exact absurd rfl (hrange _)
        · rfl

theorem perparse_eq_nil_iff {text : CStr} :
    (perparse text).ranges = [] ↔ startsWithRange (tokens text) = false :=
  parseFrom_eq_nil_iff (Nat.lt_succ_self _)

theorem mem_perparse {text : CStr} : ∀ r ∈ (perparse text).ranges, r.mem = none :=
  mem_of_mem_parseFrom fun _ hr => absurd hr List.not_mem_nil

end Vimgdb.Per
