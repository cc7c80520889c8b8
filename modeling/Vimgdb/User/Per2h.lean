import Mathlib.Data.List.DropRight
import Vimgdb.User.PerAddress
import Vimgdb.User.PerView

/-!
# Headers

`per2h` prints the registers of a peripheral file as definitions of C.  It trims the names in place.

* `skipBlank`: a name in memory without its blanks; `skipBlank_blank` and `skipBlank_text` say what is
  left of it.
* `header`: the text, in pieces.
* `Emits`: what is defined, if nothing is read outside of the names.
* `FieldOk`: the names that the second loop over the bits reads as the first one has trimmed them.
* `header_iff`: the header is as it should be if and only if all names are.
-/

namespace Vimgdb.Per.Header

open Printf
open MarkedText (Piece)
open View (Shifts)

/-! ## Names in memory -/

/-- `stralloc`: the characters up to a 0, and zeros behind them. -/
def stralloc (s : CStr) : CStr :=
  scanned s ++ List.replicate (s.length - (scanned s).length + 1) '\x00'

/-- The first loop of `skip_blank`: how many blanks are in front. -/
def skipFront : CStr → Option Nat
  | [] => none
  | c :: s => if c = ' ' then (skipFront s).map (· + 1) else some 0

/-- The second loop, from an index back. -/
def skipBack (s : CStr) : Nat → Option Nat
  | 0 => some 0
  | i + 1 => (Buffers.read s (i + 1)).bind fun c => if c = ' ' then skipBack s i else some (i + 1)

/-- `skip_blank`: the offset behind the blanks in front, and the name without those behind it.  The
index of the last character has 32 bits, that of an empty name is the largest one. -/
def skipBlank (s : CStr) : Option (Nat × CStr) := do
  let o ← skipFront s
  let t ← Buffers.text '\x00' s
  let i ← skipBack s (BitVec.ofNat 32 t.length - 1).toNat
  let s ← Buffers.write s (BitVec.ofNat 32 (i + 1)).toNat '\x00'
  return (o, s)

/-- A string from an offset on. -/
def textAt (s : CStr) (o : Nat) : Option CStr := Buffers.text '\x00' (s.drop o)

/-! ## The header -/

/-- What a definition is for. -/
inductive Kind
  | index
  | mask
  deriving DecidableEq

/-- `fprintf` -/
def fprintf (shows : Option Kind) (fmt : String) (args : List Arg) : Option (List (Piece Char Kind)) :=
  (vsnprintf fmt.toList args).map fun t => [⟨t, shows⟩]

/-- The first loop over the bits: the pieces, the names in memory, and the last offset. -/
def indexLoop (reg : CStr) : List Bits → Nat → Option (List (Piece Char Kind) × List CStr × Nat)
  | [], off => some ([], [], off)
  | bits :: rest, _ => do
      let (off, s) ← skipBlank (stralloc bits.name)
      let name ← textAt s off
      let ps ← fprintf (some .index) "#define %s_%s\t\t%d\n" [.str reg, .str name, .int bits.idx]
      let (qs, names, off) ← indexLoop reg rest off
      return (ps ++ qs, s :: names, off)

/-- The second loop, with the offset that the first one has left. -/
def maskLoop (sh : Shifts) (reg : CStr) (off : Nat) :
    List (Bits × CStr) → Option (List (Piece Char Kind))
  | [] => some []
  | (bits, s) :: rest => do
      let name ← textAt s off
      let ps ← fprintf (some .mask) "#define %s_%s_MASK\t0x%x\n"
        [.str reg, .str name, .int (sh.mask bits.nbits)]
      let qs ← maskLoop sh reg off rest
      return ps ++ qs

/-- The bits of a register. -/
def headerBits (sh : Shifts) (reg : CStr) (bits : List Bits) : Option (List (Piece Char Kind)) :=
  if bits = [] then some []
  else do
    let ps ← fprintf none "// bits\n" []
    let (qs, names, off) ← indexLoop reg bits 0
    let rs ← fprintf none "\n// masks\n" []
    let ts ← maskLoop sh reg off (bits.zip names)
    let us ← fprintf none "\n" []
    return ps ++ qs ++ rs ++ ts ++ us

/-- A register; one without bytes is a headline. -/
def headerRegister (sh : Shifts) (range : Range) (reg : Register) :
    Option (List (Piece Char Kind)) :=
  if reg.nbytes = 0 then some []
  else do
    let (off, s) ← skipBlank (stralloc (← reg.name))
    let name ← textAt s off
    let ps ← fprintf none "/* %s */\n// register\n#define %s\t\t\t0x%lx\n\n"
      [.str name, .str name, .long (headerAddress range reg)]
    let qs ← headerBits sh name reg.bits
    return ps ++ qs

/-- What is printed in a loop. -/
def printAll {α : Type} (f : α → Option (List (Piece Char Kind))) :
    List α → Option (List (Piece Char Kind))
  | [] => some []
  | x :: xs => do
      let ps ← f x
      let qs ← printAll f xs
      return ps ++ qs

/-- A section. -/
def headerSection (sh : Shifts) (range : Range) (sec : Section) :
    Option (List (Piece Char Kind)) := do
  let (off, s) ← skipBlank (stralloc sec.name)
  let name ← textAt s off
  let ps ← fprintf none "/**\n *\t%s\n */\n" [.str name]
  let qs ← printAll (headerRegister sh range) sec.regs
  return ps ++ qs

/-- The header of a list of ranges. -/
def header (sh : Shifts) (ranges : List Range) : Option (List (Piece Char Kind)) :=
  printAll (fun range => printAll (headerSection sh range) range.sections) ranges

/-! ## Trimming -/

/-- A name without the blanks in front and behind. -/
def trimmed (s : CStr) : CStr := ((scanned s).dropWhile (· = ' ')).rdropWhile (· = ' ')

/-- The number of blanks in front of a name. -/
def leading (s : CStr) : Nat := ((scanned s).takeWhile (· = ' ')).length

/-- A name has blanks only, or something between its blanks. -/
theorem blanks_or (s : CStr) : (∃ n, s = List.replicate n ' ') ∨
    ∃ k a t m, s = List.replicate k ' ' ++ (t ++ [a]) ++ List.replicate m ' ' ∧ a ≠ ' ' ∧
      (t ++ [a]).head? ≠ some ' ' := by
  induction s with
  | nil => exact Or.inl ⟨0, rfl⟩
  | cons c s ih =>
      by_cases hc : c = ' '
      · subst hc
        rcases ih with ⟨n, rfl⟩ | ⟨k, a, t, m, rfl, ha, hhead⟩
        · exact Or.inl ⟨n + 1, rfl⟩
        · exact Or.inr ⟨k + 1, a, t, m, rfl, ha, hhead⟩
      · right
        rcases ih with ⟨n, rfl⟩ | ⟨k, a, t, m, rfl, ha, hhead⟩
        · exact ⟨0, c, [], n, rfl, hc, fun h => hc (Option.some.inj h)⟩
        · refine ⟨0, a, c :: (List.replicate k ' ' ++ t), m, ?_, ha, fun h => hc (Option.some.inj h)⟩
          simp [List.append_assoc]

theorem skipFront_replicate (k : Nat) {c : Char} (hc : c ≠ ' ') (s : CStr) :
    skipFront (List.replicate k ' ' ++ c :: s) = some k := by
  induction k with
  | zero => exact if_neg hc
  | succ k ih =>
      rw [List.replicate_succ, List.cons_append, skipFront, if_pos rfl, ih]
      rfl

/-- Back over blanks. -/
theorem skipBack_replicate {pre post : CStr} {m : Nat} (hpre : 0 < pre.length) :
    skipBack (pre ++ List.replicate m ' ' ++ post) (pre.length - 1 + m) =
      skipBack (pre ++ List.replicate m ' ' ++ post) (pre.length - 1) := by
  have hback : ∀ j ≤ m, skipBack (pre ++ List.replicate m ' ' ++ post) (pre.length - 1 + j) =
      skipBack (pre ++ List.replicate m ' ' ++ post) (pre.length - 1) := by
    intro j hj
    induction j with
    | zero => rfl
    | succ j ih =>
        have hread : Buffers.read (pre ++ List.replicate m ' ' ++ post) (pre.length - 1 + j + 1) =
            some ' ' := by
          unfold Buffers.read
          rw [List.append_assoc, List.getElem?_append_right (by omega),
            List.getElem?_append_left (by rw [List.length_replicate]; omega),
            List.getElem?_replicate_of_lt (by omega)]
        rw [← Nat.add_assoc, skipBack, hread, Option.bind_some, if_pos rfl]
        exact ih (by omega)
  exact hback m (Nat.le_refl m)

/-- An empty text is in front of a 0. -/
theorem text_eq_nil_iff {mem : CStr} :
    Buffers.text '\x00' mem = some [] ↔ mem.head? = some '\x00' := by
  cases mem with
  | nil => exact iff_of_false nofun nofun
  | cons c mem =>
      unfold Buffers.text
      by_cases hc : c = '\x00'
      · subst hc
        simp
      · simp [hc]

/-- What is in front of a 0 is the text. -/
theorem text_eq {u rest : CStr} (hu : '\x00' ∉ u) :
    Buffers.text '\x00' (u ++ '\x00' :: rest) = some u := by
  rw [Buffers.text_append]
  exact congrArg some (scanned_of_notMem hu)

/-- The blanks behind a name are cut, and of a name of blanks all but the first one. -/
theorem skipBlank_eq {pre post : CStr} {m o : Nat} (hnul : '\x00' ∉ pre)
    (hpre : pre = [' '] ∨ ∃ t a, pre = t ++ [a] ∧ a ≠ ' ') (hshort : pre.length + m < 2 ^ 32)
    (hfront : skipFront (pre ++ List.replicate m ' ' ++ '\x00' :: post) = some o) :
    skipBlank (pre ++ List.replicate m ' ' ++ '\x00' :: post) =
      some (o, pre ++ (List.replicate m ' ' ++ '\x00' :: post).set 0 '\x00') := by
  have hpos : 0 < pre.length := by
    rcases hpre with rfl | ⟨t, a, rfl, -⟩ <;> simp
  have htext : Buffers.text '\x00' (pre ++ List.replicate m ' ' ++ '\x00' :: post) =
      some (pre ++ List.replicate m ' ') := by
    refine text_eq fun hmem => ?_
    rcases List.mem_append.mp hmem with hmem | hmem
    · exact hnul hmem
    · exact absurd (List.eq_of_mem_replicate hmem) (by decide)
  have hlast : (BitVec.ofNat 32 (pre ++ List.replicate m ' ').length - 1).toNat =
      pre.length - 1 + m := by
    rw [List.length_append, List.length_replicate, BitVec.toNat_sub, BitVec.toNat_ofNat]
    show (2 ^ 32 - 1 + (pre.length + m) % 2 ^ 32) % 2 ^ 32 = _
    omega
  have hback : skipBack (pre ++ List.replicate m ' ' ++ '\x00' :: post) (pre.length - 1 + m) =
      some (pre.length - 1) := by
    rw [skipBack_replicate hpos]
    rcases hpre with rfl | ⟨t, a, rfl, ha⟩
    · rfl
    · rw [List.length_append, List.length_singleton, Nat.add_sub_cancel]
      cases ht : t.length with
      | zero => rfl
      | succ i =>
          have hread : Buffers.read (t ++ [a] ++ List.replicate m ' ' ++ '\x00' :: post) (i + 1) =
              some a := by
            rw [List.append_assoc, List.append_assoc]
            exact Buffers.read_append ht.symm
          rw [skipBack, hread, Option.bind_some, if_neg ha]
  have hindex : (BitVec.ofNat 32 (pre.length - 1 + 1)).toNat = pre.length := by
    rw [BitVec.toNat_ofNat]
    omega
  have hwrite : Buffers.write (pre ++ List.replicate m ' ' ++ '\x00' :: post) pre.length '\x00' =
      some (pre ++ (List.replicate m ' ' ++ '\x00' :: post).set 0 '\x00') := by
    unfold Buffers.write
    rw [if_pos (by simp only [List.length_append, List.length_cons]; omega), List.append_assoc,
      List.set_append_right _ _ (Nat.le_refl _), Nat.sub_self]
  unfold skipBlank
  simp only [Option.bind_eq_bind]
  rw [hfront, Option.bind_some, htext, Option.bind_some, hlast, hback, Option.bind_some, hindex, hwrite]
  rfl

/-- The name at an offset is the trimmed one. -/
def FieldOk (off : Nat) (name : CStr) : Prop :=
  off = leading name ∨ trimmed name = [] ∧ (off = 1 ∨ leading name ≤ off ∧ off ≤ name.length)

instance (off : Nat) (name : CStr) : Decidable (FieldOk off name) :=
  inferInstanceAs (Decidable (_ ∨ _))

theorem stralloc_eq (name : CStr) : stralloc name =
    scanned name ++ '\x00' :: List.replicate (name.length - (scanned name).length) '\x00' := by
  unfold stralloc
  rw [List.replicate_succ]

/-- A name of blanks. -/
theorem skipBlank_blank {name : CStr} {n : Nat} (hshort : name.length < 2 ^ 31)
    (hname : scanned name = List.replicate (n + 1) ' ') :
    ∃ s, skipBlank (stralloc name) = some (n + 1, s) ∧
      ∀ off, textAt s off = some [] ↔ off = 1 ∨ n + 1 ≤ off ∧ off ≤ name.length := by
  have hlen : (scanned name).length = n + 1 := by rw [hname, List.length_replicate]
  have hle := length_scanned_le name
  have hbuffer : stralloc name = [' '] ++ List.replicate n ' ' ++
      '\x00' :: List.replicate (name.length - (n + 1)) '\x00' := by
    rw [stralloc_eq, hlen, hname, List.replicate_succ]
    rfl
  have hfront : skipFront ([' '] ++ List.replicate n ' ' ++
      '\x00' :: List.replicate (name.length - (n + 1)) '\x00') = some (n + 1) := by
    have h := skipFront_replicate (n + 1) (show '\x00' ≠ ' ' by decide)
      (List.replicate (name.length - (n + 1)) '\x00')
    rw [List.replicate_succ] at h
    exact h
  have hskip := skipBlank_eq (by decide) (Or.inl rfl)
    (show [' '].length + n < 2 ^ 32 by rw [List.length_singleton]; omega) hfront
  rw [hbuffer]
  refine ⟨_, hskip, fun off => ?_⟩
  unfold textAt
  rw [text_eq_nil_iff, List.head?_drop]
  rcases off with _ | _ | off
  · have hfirst : ¬ some ' ' = some '\x00' := by decide
    exact iff_of_false hfirst (by omega)
  · refine iff_of_true ?_ (Or.inl rfl)
    cases n <;> rfl
  · have hset : ([' '] ++ (List.replicate n ' ' ++ '\x00' ::
        List.replicate (name.length - (n + 1)) '\x00').set 0 '\x00')[off + 2]? =
        (List.replicate n ' ' ++ List.replicate (name.length - (n + 1) + 1) '\x00')[off + 1]? := by
      rw [List.getElem?_append_right (by simp), List.length_singleton, List.replicate_succ]
      exact List.getElem?_set_ne (by omega)
    rw [hset]
    rcases Nat.lt_or_ge (off + 1) n with hn | hn
    · rw [List.getElem?_append_left (by rwa [List.length_replicate]),
        List.getElem?_replicate_of_lt hn]
      exact iff_of_false (by decide) (by omega)
    · rw [List.getElem?_append_right (by rwa [List.length_replicate]), List.length_replicate,
        List.getElem?_replicate]
      split
      · exact iff_of_true rfl (by omega)
      · exact iff_of_false nofun (by omega)

/-- Behind as many blanks as there are stands the name, and nowhere else. -/
theorem textAt_iff {u rest : CStr} {a : Char} (k : Nat) (hnul : '\x00' ∉ u) (hmem : a ∈ u)
    (ha : a ≠ ' ') (hhead : u.head? ≠ some ' ') (hrest : ∀ c ∈ rest, c = ' ' ∨ c = '\x00')
    (off : Nat) : textAt (List.replicate k ' ' ++ u ++ '\x00' :: rest) off = some u ↔ off = k := by
  have hlen : (List.replicate k ' ').length = k := List.length_replicate
  unfold textAt
  rw [List.append_assoc]
  constructor
  · intro htext
    rcases Nat.lt_trichotomy off k with hoff | rfl | hoff
    · -- blanks are left in front
      exfalso
      obtain ⟨j, hj⟩ : ∃ j, k - off = j + 1 := ⟨k - off - 1, by omega⟩
      have hnul' : '\x00' ∉ List.replicate (j + 1) ' ' ++ u := fun h =>
        (List.mem_append.mp h).elim (fun h => absurd (List.eq_of_mem_replicate h) (by decide)) hnul
      rw [List.drop_append_of_le_length (by omega), List.drop_replicate, hj, ← List.append_assoc,
        text_eq hnul'] at htext
      rw [← Option.some.inj htext] at hhead
      exact hhead rfl
    · rfl
    · -- characters are missing in front, or it is what is behind the name
      exfalso
      rw [List.drop_append, List.drop_eq_nil_of_le (by omega), List.nil_append, hlen] at htext
      rcases Nat.lt_or_ge u.length (off - k) with hbehind | hinside
      · have hin : a ∈ (u ++ '\x00' :: rest).drop (off - k) := by
          unfold Buffers.text at htext
          split at htext
          · have hall := Option.some.inj htext
            rw [← hall] at hmem
            exact (List.takeWhile_sublist _).subset hmem
          · cases htext
        rw [List.drop_append, List.drop_eq_nil_of_le (by omega), List.nil_append] at hin
        rcases List.mem_cons.mp (List.mem_of_mem_drop hin) with rfl | hin
        · exact hnul hmem
        · rcases hrest a hin with rfl | rfl
          · exact ha rfl
          · exact hnul hmem
      · rw [List.drop_append_of_le_length hinside,
          text_eq fun h => hnul (List.mem_of_mem_drop h)] at htext
        have hlength := congrArg List.length (Option.some.inj htext)
        rw [List.length_drop] at hlength
        omega
  · rintro rfl
    rw [List.drop_left' hlen]
    exact text_eq hnul

/-- A name with something between its blanks. -/
theorem skipBlank_text {name t : CStr} {a : Char} {k m : Nat} (hshort : name.length < 2 ^ 31)
    (hname : scanned name = List.replicate k ' ' ++ (t ++ [a]) ++ List.replicate m ' ')
    (ha : a ≠ ' ') (hhead : (t ++ [a]).head? ≠ some ' ') :
    ∃ s, skipBlank (stralloc name) = some (k, s) ∧
      ∀ off, textAt s off = some (t ++ [a]) ↔ off = k := by
  have hnul : '\x00' ∉ List.replicate k ' ' ++ (t ++ [a]) := fun hmem =>
    notMem_scanned name (hname ▸ List.mem_append_left _ hmem)
  have hle := length_scanned_le name
  rw [hname, List.length_append, List.length_replicate] at hle
  have hbuffer : stralloc name = List.replicate k ' ' ++ (t ++ [a]) ++ List.replicate m ' ' ++
      '\x00' :: List.replicate (name.length - (scanned name).length) '\x00' := by
    rw [stralloc_eq, hname]
  have hfront : skipFront (List.replicate k ' ' ++ (t ++ [a]) ++ List.replicate m ' ' ++
      '\x00' :: List.replicate (name.length - (scanned name).length) '\x00') = some k := by
    cases t with
    | nil =>
        simp only [List.nil_append, List.append_assoc, List.singleton_append]
        exact skipFront_replicate k ha _
    | cons b t =>
        simp only [List.cons_append, List.append_assoc]
        exact skipFront_replicate k (fun h => hhead (congrArg some h)) _
  have hskip := skipBlank_eq hnul (Or.inr ⟨List.replicate k ' ' ++ t, a, by
    rw [List.append_assoc], ha⟩) (by omega) hfront
  -- the 0 that is written, and what is left behind it
  obtain ⟨rest, hset, hrest⟩ : ∃ rest, (List.replicate m ' ' ++ '\x00' ::
      List.replicate (name.length - (scanned name).length) '\x00').set 0 '\x00' = '\x00' :: rest ∧
      ∀ c ∈ rest, c = ' ' ∨ c = '\x00' := by
    cases m with
    | zero => exact ⟨_, rfl, fun c hc => Or.inr (List.eq_of_mem_replicate hc)⟩
    | succ m =>
        refine ⟨_, rfl, fun c hc => ?_⟩
        rcases List.mem_append.mp hc with hc | hc
        · exact Or.inl (List.eq_of_mem_replicate hc)
        · rcases List.mem_cons.mp hc with rfl | hc
          · exact Or.inr rfl
          · exact Or.inr (List.eq_of_mem_replicate hc)
  rw [hset] at hskip
  rw [hbuffer]
  exact ⟨_, hskip, textAt_iff k (fun h => hnul (List.mem_append_right _ h))
    (List.mem_append_right _ List.mem_cons_self) ha hhead hrest⟩

/-- The blanks around a name. -/
theorem blanks_around (k m : Nat) {t : CStr} {a : Char} (ha : a ≠ ' ')
    (hhead : (t ++ [a]).head? ≠ some ' ') :
    ((List.replicate k ' ' ++ (t ++ [a]) ++ List.replicate m ' ').takeWhile (· = ' ')).length = k ∧
    ((List.replicate k ' ' ++ (t ++ [a]) ++ List.replicate m ' ').dropWhile (· = ' ')).rdropWhile
      (· = ' ') = t ++ [a] := by
  have hfront : ∀ c ∈ List.replicate k ' ', decide (c = ' ') = true := fun c hc =>
    decide_eq_true (List.eq_of_mem_replicate hc)
  have hback : (t ++ [a] ++ List.replicate m ' ').rdropWhile (· = ' ') = t ++ [a] := by
    induction m with
    | zero =>
        rw [List.replicate_zero, List.append_nil, List.rdropWhile_concat_neg _ _ _ (by simpa using ha)]
    | succ m ih =>
        rw [List.replicate_succ', ← List.append_assoc, List.rdropWhile_concat_pos _ _ _ (by decide), ih]
  obtain ⟨c, u, hcons, hc⟩ : ∃ c u, t ++ [a] ++ List.replicate m ' ' = c :: u ∧ ¬ c = ' ' := by
    cases t with
    | nil => exact ⟨a, _, rfl, ha⟩
    | cons c t => exact ⟨c, _, rfl, fun h => hhead (congrArg some h)⟩
  rw [List.append_assoc, List.takeWhile_append_of_pos hfront, List.dropWhile_append_of_pos hfront,
    hcons, List.takeWhile_cons_of_neg (by simpa using hc), List.dropWhile_cons_of_neg (by simpa using hc),
    ← hcons, hback]
  simp

/-- The loops find the blanks of a name, which is read as the trimmed one where the condition holds. -/
theorem skipBlank_spec {name : CStr} (hshort : name.length < 2 ^ 31) (hne : scanned name ≠ []) :
    ∃ s, skipBlank (stralloc name) = some (leading name, s) ∧
      ∀ off, textAt s off = some (trimmed name) ↔ FieldOk off name := by
  unfold FieldOk leading trimmed
  rcases blanks_or (scanned name) with ⟨n, hname⟩ | ⟨k, a, t, m, hname, ha, hhead⟩
  · cases n with
    | zero => exact absurd hname hne
    | succ n =>
        obtain ⟨s, hskip, htext⟩ := skipBlank_blank hshort hname
        have htake : ((scanned name).takeWhile (· = ' ')).length = n + 1 := by
          rw [hname, List.takeWhile_replicate, if_pos (by decide), List.length_replicate]
        have hdrop : (scanned name).dropWhile (· = ' ') = [] := by
          rw [hname, List.dropWhile_replicate, if_pos (by decide)]
        rw [htake, hdrop]
        refine ⟨s, hskip, fun off => ?_⟩
        have hle := length_scanned_le name
        rw [hname, List.length_replicate] at hle
        rw [List.rdropWhile_nil, htext]
        simp only [true_and]
        omega
  · obtain ⟨s, hskip, htext⟩ := skipBlank_text hshort hname ha hhead
    obtain ⟨htake, hdrop⟩ := blanks_around k m ha hhead
    rw [← hname] at htake hdrop
    rw [htake, hdrop]
    refine ⟨s, hskip, fun off => ?_⟩
    rw [htext]
    simp

/-- Of an empty name a character far outside is read. -/
theorem skipBlank_empty {name : CStr} (hshort : name.length < 2 ^ 31) (hname : scanned name = []) :
    skipBlank (stralloc name) = none := by
  have hbuffer : stralloc name = '\x00' :: List.replicate name.length '\x00' := by
    rw [stralloc_eq, hname]
    rfl
  have hread : Buffers.read (stralloc name) (2 ^ 32 - 2 + 1) = none := by
    unfold Buffers.read
    rw [hbuffer, List.getElem?_eq_none]
    rw [List.length_cons, List.length_replicate]
    omega
  have hback : skipBack (stralloc name) (2 ^ 32 - 2 + 1) = none := by
    rw [skipBack, hread]
    rfl
  have htext : Buffers.text '\x00' (stralloc name) = some [] := by
    rw [text_eq_nil_iff, hbuffer]
    rfl
  have hfront : skipFront (stralloc name) = some 0 := by
    rw [hbuffer]
    rfl
  unfold skipBlank
  simp only [Option.bind_eq_bind]
  rw [hfront, Option.bind_some, htext, Option.bind_some]
  have hlast : (BitVec.ofNat 32 (List.length ([] : CStr)) - 1).toNat = 2 ^ 32 - 2 + 1 := by decide
  rw [hlast, hback]
  rfl

/-! ## Definitions -/

/-- A number in base 10, and one in base 16. -/
def decimal (v : BitVec 32) : CStr := Spec.signed {} v.toInt

def hexadecimal (v : BitVec 32) : CStr := Spec.hex {} v.toNat

/-- The names of the definitions for some bits begin with it. -/
def stem (reg : Register) (bits : Bits) : CStr :=
  trimmed (reg.name.getD []) ++ "_".toList ++ trimmed bits.name

/-- The definition of an index. -/
def indexText (stem : CStr) (bits : Bits) : CStr :=
  "#define ".toList ++ stem ++ "\t\t".toList ++ decimal bits.idx ++ "\n".toList

/-- The definition of a mask. -/
def maskText (sh : Shifts) (stem : CStr) (bits : Bits) : CStr :=
  "#define ".toList ++ stem ++ "_MASK\t0x".toList ++ hexadecimal (sh.mask bits.nbits) ++ "\n".toList

/-- The definitions of one kind. -/
def texts (kind : Kind) (ps : List (Piece Char Kind)) : List CStr :=
  ps.filterMap fun piece => if piece.shows = some kind then some piece.text else none

/-- The definitions that are printed, if nothing is read outside of the names. -/
def Emits (r : Option (List (Piece Char Kind))) (indices masks : List CStr) : Prop :=
  ∃ ps, r = some ps ∧ texts .index ps = indices ∧ texts .mask ps = masks

theorem texts_append (kind : Kind) (ps qs : List (Piece Char Kind)) :
    texts kind (ps ++ qs) = texts kind ps ++ texts kind qs := List.filterMap_append

theorem notMem_of_textAt {s t : CStr} {off : Nat} (h : textAt s off = some t) : '\x00' ∉ t := by
  unfold textAt Buffers.text at h
  split at h
  · cases h
    exact notMem_scanned _
  · cases h

theorem notMem_trimmed (s : CStr) : '\x00' ∉ trimmed s := fun h =>
  notMem_scanned s ((List.dropWhile_sublist _).subset
    ((List.rdropWhile_prefix (fun c => decide (c = ' ')) _).subset h))

theorem fprintf_index {r name : CStr} (hr : '\x00' ∉ r) (hname : '\x00' ∉ name) (bits : Bits) :
    fprintf (some .index) "#define %s_%s\t\t%d\n" [.str r, .str name, .int bits.idx] =
      some [⟨indexText (r ++ "_".toList ++ name) bits, some .index⟩] := by
  have hconv : Spec.convert {} 'd' (.int bits.idx) = some (decimal bits.idx) := rfl
  unfold fprintf vsnprintf indexText
  rw [scanned_of_notMem (by decide)]
  simp [scan, convert_string, hconv, Spec.modify, scanned_of_notMem hr, scanned_of_notMem hname]

theorem fprintf_mask {r name : CStr} (hr : '\x00' ∉ r) (hname : '\x00' ∉ name) (sh : Shifts)
    (bits : Bits) : fprintf (some .mask) "#define %s_%s_MASK\t0x%x\n"
      [.str r, .str name, .int (sh.mask bits.nbits)] =
        some [⟨maskText sh (r ++ "_".toList ++ name) bits, some .mask⟩] := by
  have hconv : Spec.convert {} 'x' (.int (sh.mask bits.nbits)) =
      some (hexadecimal (sh.mask bits.nbits)) := rfl
  unfold fprintf vsnprintf maskText
  rw [scanned_of_notMem (by decide)]
  simp [scan, convert_string, hconv, Spec.modify, scanned_of_notMem hr, scanned_of_notMem hname]

/-! ## The loops over the bits -/

variable (sh : Shifts) {reg : CStr}

/-- The first loop: the definitions of the indices, and the names it leaves in memory. -/
theorem indexLoop_eq (hreg : '\x00' ∉ reg) {bits : List Bits}
    (hshort : ∀ b ∈ bits, b.name.length < 2 ^ 31) (hne : ∀ b ∈ bits, scanned b.name ≠ []) (off : Nat) :
    ∃ names, indexLoop reg bits off = some (bits.map fun b =>
        ⟨indexText (reg ++ "_".toList ++ trimmed b.name) b, some .index⟩, names,
        (bits.getLast?.map fun b => leading b.name).getD off) ∧
      List.Forall₂ (fun b s => ∀ off, textAt s off = some (trimmed b.name) ↔ FieldOk off b.name)
        bits names := by
  induction bits generalizing off with
  | nil => exact ⟨[], rfl, .nil⟩
  | cons b bits ih =>
      obtain ⟨s, hskip, htext⟩ := skipBlank_spec (hshort b List.mem_cons_self)
        (hne b List.mem_cons_self)
      obtain ⟨names, hloop, hnames⟩ := ih (fun b hb => hshort b (List.mem_cons_of_mem _ hb))
        (fun b hb => hne b (List.mem_cons_of_mem _ hb)) (leading b.name)
      refine ⟨s :: names, ?_, .cons htext hnames⟩
      have hown := (htext (leading b.name)).mpr (Or.inl rfl)
      have hlast : ((b :: bits).getLast?.map fun b => leading b.name).getD off =
          (bits.getLast?.map fun b => leading b.name).getD (leading b.name) := by
        rw [List.getLast?_cons]
        cases bits.getLast? <;> rfl
      unfold indexLoop
      simp only [Option.bind_eq_bind]
      rw [hskip, Option.bind_some]
      dsimp only
      rw [hown, Option.bind_some, fprintf_index hreg (notMem_trimmed _), Option.bind_some, hloop, hlast]
      rfl

/-- It does not come to its end with an empty name. -/
theorem indexLoop_eq_none {bits : List Bits} (hshort : ∀ b ∈ bits, b.name.length < 2 ^ 31)
    (hempty : ∃ b ∈ bits, scanned b.name = []) (off : Nat) : indexLoop reg bits off = none := by
  induction bits generalizing off with
  | nil =>
      obtain ⟨b, hb, -⟩ := hempty
      cases hb
  | cons b bits ih =>
      unfold indexLoop
      by_cases hb : scanned b.name = []
      · rw [skipBlank_empty (hshort b List.mem_cons_self) hb]
        rfl
      · obtain ⟨b', hb', hnil⟩ := hempty
        have hmem : b' ∈ bits := by
          rcases List.mem_cons.mp hb' with rfl | hmem
          · exact absurd hnil hb
          · exact hmem
        have hrest := fun off => ih (fun b hb => hshort b (List.mem_cons_of_mem _ hb))
          ⟨b', hmem, hnil⟩ off
        simp only [Option.bind_eq_bind, hrest, Option.bind_none]
        simp

/-- The second loop prints the definitions of the masks if and only if it reads the trimmed names. -/
theorem maskLoop_iff (hreg : '\x00' ∉ reg) (off : Nat) (zs : List (Bits × CStr)) :
    (∃ ps, maskLoop sh reg off zs = some ps ∧ texts .mask ps =
      zs.map fun z => maskText sh (reg ++ "_".toList ++ trimmed z.1.name) z.1) ↔
    ∀ z ∈ zs, textAt z.2 off = some (trimmed z.1.name) := by
  induction zs with
  | nil => exact iff_of_true ⟨[], rfl, rfl⟩ nofun
  | cons z zs ih =>
      obtain ⟨b, s⟩ := z
      rw [List.forall_mem_cons, ← ih, maskLoop]
      simp only [Option.bind_eq_bind]
      cases htext : textAt s off with
      | none => exact iff_of_false nofun nofun
      | some name =>
          have hname := notMem_of_textAt htext
          rw [Option.bind_some, fprintf_mask hreg hname, Option.bind_some]
          constructor
          · rintro ⟨ps, hps, htexts⟩
            obtain ⟨qs, hqs, heq⟩ := Option.bind_eq_some_iff.mp hps
            cases heq
            obtain ⟨hfirst, hrest⟩ := List.cons.inj htexts
            refine ⟨?_, qs, hqs, hrest⟩
            unfold maskText at hfirst
            simp only [List.append_assoc, List.append_cancel_left_eq] at hfirst
            exact congrArg some (List.append_cancel_right hfirst)
          · rintro ⟨heq, qs, hqs, hrest⟩
            obtain rfl := Option.some.inj heq
            rw [hqs]
            refine ⟨_, rfl, ?_⟩
            show _ :: texts .mask qs = _
            rw [hrest]
            rfl

/-- There is one for each of the bits, and nothing else. -/
theorem maskLoop_kinds (hreg : '\x00' ∉ reg) {off : Nat} {zs : List (Bits × CStr)}
    {ps : List (Piece Char Kind)} (h : maskLoop sh reg off zs = some ps) :
    texts .index ps = [] ∧ (texts .mask ps).length = zs.length := by
  induction zs generalizing ps with
  | nil =>
      cases h
      exact ⟨rfl, rfl⟩
  | cons z zs ih =>
      obtain ⟨b, s⟩ := z
      rw [maskLoop] at h
      obtain ⟨name, hname, h⟩ := Option.bind_eq_some_iff.mp h
      rw [fprintf_mask hreg (notMem_of_textAt hname)] at h
      obtain ⟨_, hfirst, h⟩ := Option.bind_eq_some_iff.mp h
      cases hfirst
      obtain ⟨qs, hqs, heq⟩ := Option.bind_eq_some_iff.mp h
      cases heq
      obtain ⟨hindex, hmask⟩ := ih hqs
      rw [texts_append, texts_append, hindex, List.length_append, hmask, List.length_cons]
      exact ⟨rfl, Nat.add_comm _ _⟩

/-- The names of some bits are such that both loops read them without their blanks. -/
def BitsOk (bits : List Bits) : Prop :=
  (∀ b ∈ bits, scanned b.name ≠ []) ∧
    ∀ last ∈ bits.getLast?, ∀ b ∈ bits, FieldOk (leading last.name) b.name

instance (bits : List Bits) : Decidable (BitsOk bits) := inferInstanceAs (Decidable (_ ∧ _))

/-- The definitions for some bits. -/
def indexTexts (reg : CStr) (bits : List Bits) : List CStr :=
  bits.map fun b => indexText (reg ++ "_".toList ++ trimmed b.name) b

def maskTexts (sh : Shifts) (reg : CStr) (bits : List Bits) : List CStr :=
  bits.map fun b => maskText sh (reg ++ "_".toList ++ trimmed b.name) b

/-- What the loops print of bits that have names. -/
theorem headerBits_eq (hreg : '\x00' ∉ reg) {bits : List Bits} {last : Bits}
    (hlast : bits.getLast? = some last) (hshort : ∀ b ∈ bits, b.name.length < 2 ^ 31)
    (hne : ∀ b ∈ bits, scanned b.name ≠ []) :
    ∃ names, List.Forall₂ (fun b s => ∀ off, textAt s off = some (trimmed b.name) ↔
        FieldOk off b.name) bits names ∧
      headerBits sh reg bits = (maskLoop sh reg (leading last.name) (bits.zip names)).map fun ts =>
        ⟨"// bits\n".toList, none⟩ :: (bits.map fun b =>
          ⟨indexText (reg ++ "_".toList ++ trimmed b.name) b, some .index⟩) ++
        [⟨"\n// masks\n".toList, none⟩] ++ ts ++ [⟨"\n".toList, none⟩] := by
  obtain ⟨names, hloop, hnames⟩ := indexLoop_eq hreg hshort hne 0
  refine ⟨names, hnames, ?_⟩
  have hnil : bits ≠ [] := by
    rintro rfl
    cases hlast
  have hbits : fprintf none "// bits\n" [] = some [⟨"// bits\n".toList, none⟩] := rfl
  have hmasks : fprintf none "\n// masks\n" [] = some [⟨"\n// masks\n".toList, none⟩] := rfl
  have hend : fprintf none "\n" [] = some [⟨"\n".toList, none⟩] := rfl
  rw [hlast] at hloop
  unfold headerBits
  rw [if_neg hnil, hbits, hloop, hmasks, hend]
  simp only [Option.bind_eq_bind, Option.bind_some, Option.map_some, Option.getD_some]
  cases maskLoop sh reg (leading last.name) (bits.zip names) <;> rfl

/-- No more is printed than some definitions. -/
def Bounded (r : Option (List (Piece Char Kind))) (indices masks : List CStr) : Prop :=
  ∀ ps, r = some ps →
    (texts .index ps).length ≤ indices.length ∧ (texts .mask ps).length ≤ masks.length

theorem texts_shown (ts : List (Bits × CStr)) :
    texts .index (ts.map fun z => ⟨z.2, some .index⟩) = ts.map Prod.snd ∧
    texts .mask (ts.map fun z => ⟨z.2, some .index⟩) = [] := by
  induction ts with
  | nil => exact ⟨rfl, rfl⟩
  | cons z ts ih => exact ⟨congrArg (z.2 :: ·) ih.1, ih.2⟩

/-- The definitions among the pieces of some bits. -/
theorem texts_bits (bits : List Bits) (ts : List (Piece Char Kind)) :
    texts .index (⟨"// bits\n".toList, none⟩ :: (bits.map fun b =>
      ⟨indexText (reg ++ "_".toList ++ trimmed b.name) b, some .index⟩) ++
        [⟨"\n// masks\n".toList, none⟩] ++ ts ++ [⟨"\n".toList, none⟩]) =
      indexTexts reg bits ++ texts .index ts ∧
    texts .mask (⟨"// bits\n".toList, none⟩ :: (bits.map fun b =>
      ⟨indexText (reg ++ "_".toList ++ trimmed b.name) b, some .index⟩) ++
        [⟨"\n// masks\n".toList, none⟩] ++ ts ++ [⟨"\n".toList, none⟩]) = texts .mask ts := by
  obtain ⟨hindex, hmask⟩ := texts_shown
    (bits.map fun b => (b, indexText (reg ++ "_".toList ++ trimmed b.name) b))
  rw [List.map_map, List.map_map] at hindex
  rw [List.map_map] at hmask
  have hnone : ∀ kind t, texts kind [⟨t, none⟩] = [] := fun kind t => rfl
  have hcons : ∀ kind t ps, texts kind (⟨t, none⟩ :: ps) = texts kind ps := fun kind t ps => rfl
  constructor
  · rw [texts_append, texts_append, texts_append, hnone, hnone, hcons, List.append_nil, List.append_nil]
    exact congrArg (· ++ _) hindex
  · rw [texts_append, texts_append, texts_append, hnone, hnone, hcons, List.append_nil, List.append_nil]
    exact congrArg (· ++ _) hmask

/-- The definitions for some bits are printed if and only if all names are as both loops need them. -/
theorem headerBits_iff (hreg : '\x00' ∉ reg) {bits : List Bits}
    (hshort : ∀ b ∈ bits, b.name.length < 2 ^ 31) :
    (Emits (headerBits sh reg bits) (indexTexts reg bits) (maskTexts sh reg bits) ↔ BitsOk bits) ∧
    Bounded (headerBits sh reg bits) (indexTexts reg bits) (maskTexts sh reg bits) := by
  cases hlast : bits.getLast? with
  | none =>
      obtain rfl := List.getLast?_eq_none_iff.mp hlast
      have hnone : headerBits sh reg [] = some [] := rfl
      refine ⟨iff_of_true ⟨[], hnone, rfl, rfl⟩ ⟨nofun, nofun⟩, fun ps h => ?_⟩
      cases h
      exact ⟨Nat.le_refl _, Nat.le_refl _⟩
  | some last =>
      by_cases hne : ∀ b ∈ bits, scanned b.name ≠ []
      · obtain ⟨names, hnames, heq⟩ := headerBits_eq sh hreg hlast hshort hne
        have hlength := hnames.length_eq
        have hfst : (bits.zip names).map Prod.fst = bits := List.map_fst_zip (by omega)
        have hmasks : maskTexts sh reg bits = (bits.zip names).map fun z =>
            maskText sh (reg ++ "_".toList ++ trimmed z.1.name) z.1 := by
          unfold maskTexts
          conv_lhs => rw [← hfst, List.map_map]
          rfl
        have hok : BitsOk bits ↔
            ∀ z ∈ bits.zip names, textAt z.2 (leading last.name) = some (trimmed z.1.name) := by
          unfold BitsOk
          rw [hlast]
          constructor
          · rintro ⟨-, hall⟩ ⟨b, s⟩ hz
            exact ((List.forall₂_iff_zip.mp hnames).2 hz _).mpr
              (hall last rfl b (List.of_mem_zip hz).1)
          · intro hall
            refine ⟨hne, ?_⟩
            rintro _ ⟨⟩ b hb
            rw [← hfst] at hb
            obtain ⟨⟨b, s⟩, hz, rfl⟩ := List.mem_map.mp hb
            exact ((List.forall₂_iff_zip.mp hnames).2 hz _).mp (hall _ hz)
        rw [heq]
        constructor
        · rw [hok, ← maskLoop_iff sh hreg, ← hmasks]
          constructor
          · rintro ⟨ps, hps, -, hmask⟩
            obtain ⟨ts, hts, rfl⟩ := Option.map_eq_some_iff.mp hps
            rw [(texts_bits bits ts).2] at hmask
            exact ⟨ts, hts, hmask⟩
          · rintro ⟨ts, hts, hmask⟩
            refine ⟨_, congrArg (Option.map _) hts, ?_, ?_⟩
            · rw [(texts_bits bits ts).1, (maskLoop_kinds sh hreg hts).1, List.append_nil]
            · rw [(texts_bits bits ts).2, hmask]
        · intro ps hps
          obtain ⟨ts, hts, rfl⟩ := Option.map_eq_some_iff.mp hps
          obtain ⟨hindex, hmask⟩ := maskLoop_kinds sh hreg hts
          rw [(texts_bits bits ts).1, (texts_bits bits ts).2, hindex, hmask, hmasks, List.append_nil,
            List.length_map]
          exact ⟨Nat.le_refl _, Nat.le_refl _⟩
      · have hnone : headerBits sh reg bits = none := by
          have hnil : bits ≠ [] := by
            rintro rfl
            cases hlast
          have hempty : ∃ b ∈ bits, scanned b.name = [] := by
            by_contra hall
            exact hne fun b hb h => hall ⟨b, hb, h⟩
          unfold headerBits
          rw [if_neg hnil, indexLoop_eq_none hshort hempty]
          simp
        rw [hnone]
        exact ⟨iff_of_false nofun fun h => hne h.1, nofun⟩

/-! ## Registers, sections and ranges -/

/-- The definitions for a register. -/
def registerIndices (reg : Register) : List CStr := reg.bits.map fun b => indexText (stem reg b) b

def registerMasks (sh : Shifts) (reg : Register) : List CStr :=
  reg.bits.map fun b => maskText sh (stem reg b) b

/-- The names of a register, and those of its bits, are such that all of them are read without their
blanks.  Nothing is printed of an entry without bytes. -/
def RegisterOk (reg : Register) : Prop :=
  if reg.nbytes = 0 then reg.bits = [] else scanned (reg.name.getD []) ≠ [] ∧ BitsOk reg.bits

/-- The length of a token is an `int`. -/
structure Register.Short (reg : Register) : Prop where
  name : (reg.name.getD []).length < 2 ^ 31
  bits : ∀ b ∈ reg.bits, b.name.length < 2 ^ 31

structure Section.Short (sec : Section) : Prop where
  name : sec.name.length < 2 ^ 31
  regs : ∀ reg ∈ sec.regs, Register.Short reg

/-- The lines above the bits of a register. -/
theorem fprintf_register {name : CStr} (hname : '\x00' ∉ name) (v : BitVec 64) :
    ∃ t, fprintf none "/* %s */\n// register\n#define %s\t\t\t0x%lx\n\n"
      [.str name, .str name, .long v] = some [⟨t, none⟩] := by
  have hconv : Spec.convert { long := true, started := true } 'x' (.long v) =
      some (Spec.hex { long := true, started := true } v.toNat) := rfl
  unfold fprintf vsnprintf
  rw [scanned_of_notMem (by decide)]
  simp [scan, convert_string, hconv, Spec.modify, scanned_of_notMem hname]

theorem fprintf_section {name : CStr} (hname : '\x00' ∉ name) :
    ∃ t, fprintf none "/**\n *\t%s\n */\n" [.str name] = some [⟨t, none⟩] := by
  unfold fprintf vsnprintf
  rw [scanned_of_notMem (by decide)]
  simp [scan, convert_string, Spec.modify, scanned_of_notMem hname]

/-- A piece that is not a definition is in front of something that is printed. -/
theorem emits_cons {r : Option (List (Piece Char Kind))} {indices masks : List CStr} (t : CStr) :
    (Emits (r.bind fun qs => some ([⟨t, none⟩] ++ qs)) indices masks ↔ Emits r indices masks) ∧
    (Bounded (r.bind fun qs => some ([⟨t, none⟩] ++ qs)) indices masks ↔
      Bounded r indices masks) := by
  cases r with
  | none => exact ⟨iff_of_false nofun nofun, iff_of_true nofun nofun⟩
  | some qs =>
      constructor
      · constructor
        · rintro ⟨_, ⟨⟩, hindex, hmask⟩
          exact ⟨qs, rfl, hindex, hmask⟩
        · rintro ⟨_, ⟨⟩, hindex, hmask⟩
          exact ⟨_, rfl, hindex, hmask⟩
      · constructor
        · rintro h _ ⟨⟩
          exact h ([⟨t, none⟩] ++ qs) rfl
        · rintro h _ ⟨⟩
          exact h qs rfl

/-- What is printed in front of a register's bits. -/
theorem headerRegister_iff {reg : Register} (hshort : Register.Short reg) (range : Range) :
    (Emits (headerRegister sh range reg) (registerIndices reg) (registerMasks sh reg) ↔
      RegisterOk reg) ∧
    Bounded (headerRegister sh range reg) (registerIndices reg) (registerMasks sh reg) := by
  unfold headerRegister RegisterOk
  by_cases hbytes : reg.nbytes = 0
  · rw [if_pos hbytes, if_pos hbytes]
    constructor
    · constructor
      · rintro ⟨_, ⟨⟩, hindex, -⟩
        exact List.map_eq_nil_iff.mp hindex.symm
      · intro hbits
        refine ⟨[], rfl, ?_, ?_⟩
        · rw [registerIndices, hbits]
          rfl
        · rw [registerMasks, hbits]
          rfl
    · rintro _ ⟨⟩
      exact ⟨Nat.zero_le _, Nat.zero_le _⟩
  · rw [if_neg hbytes, if_neg hbytes]
    simp only [Option.bind_eq_bind]
    cases hreg : reg.name with
    | none => exact ⟨iff_of_false nofun fun h => h.1 rfl, nofun⟩
    | some name =>
        have hlength : name.length < 2 ^ 31 := by
          have h := hshort.name
          rwa [hreg] at h
        simp only [Option.bind_some, Option.getD_some]
        by_cases hempty : scanned name = []
        · rw [skipBlank_empty hlength hempty]
          exact ⟨iff_of_false nofun fun h => h.1 hempty, nofun⟩
        · obtain ⟨s, hskip, htext⟩ := skipBlank_spec hlength hempty
          obtain ⟨t, ht⟩ := fprintf_register (notMem_trimmed name) (headerAddress range reg)
          obtain ⟨hiff, hbounded⟩ := headerBits_iff sh (notMem_trimmed name) hshort.bits
          have hindices : indexTexts (trimmed name) reg.bits = registerIndices reg := by
            unfold indexTexts registerIndices stem
            rw [hreg]
            rfl
          have hmasks : maskTexts sh (trimmed name) reg.bits = registerMasks sh reg := by
            unfold maskTexts registerMasks stem
            rw [hreg]
            rfl
          rw [hskip]
          simp only [Option.bind_some]
          rw [(htext (leading name)).mpr (Or.inl rfl), Option.bind_some, ht, Option.bind_some]
          rw [hindices, hmasks] at hiff hbounded
          exact ⟨(emits_cons t).1.trans (hiff.trans (and_iff_right hempty).symm),
            (emits_cons t).2.mpr hbounded⟩

/-- The loops print the definitions for their elements if and only if each of these does so. -/
theorem printAll_iff {α : Type} {f : α → Option (List (Piece Char Kind))}
    {indices masks : α → List CStr} {ok : α → Prop} (xs : List α) (h : ∀ x ∈ xs, (Emits (f x) (indices x) (masks x) ↔ ok x) ∧
      Bounded (f x) (indices x) (masks x)) :
    (Emits (printAll f xs) (xs.flatMap indices) (xs.flatMap masks) ↔ ∀ x ∈ xs, ok x) ∧
    Bounded (printAll f xs) (xs.flatMap indices) (xs.flatMap masks) := by
  induction xs with
  | nil =>
      refine ⟨iff_of_true ⟨[], rfl, rfl, rfl⟩ nofun, ?_⟩
      rintro _ ⟨⟩
      exact ⟨Nat.le_refl _, Nat.le_refl _⟩
  | cons x xs ih =>
      obtain ⟨hx, hboundx⟩ := h x List.mem_cons_self
      obtain ⟨hxs, hboundxs⟩ := ih fun x hx => h x (List.mem_cons_of_mem _ hx)
      have hparts : ∀ ps, printAll f (x :: xs) = some ps ↔
          ∃ qs rs, f x = some qs ∧ printAll f xs = some rs ∧ ps = qs ++ rs := by
        intro ps
        rw [printAll]
        constructor
        · intro hps
          obtain ⟨qs, hqs, hps⟩ := Option.bind_eq_some_iff.mp hps
          obtain ⟨rs, hrs, heq⟩ := Option.bind_eq_some_iff.mp hps
          exact ⟨qs, rs, hqs, hrs, (Option.some.inj heq).symm⟩
        · rintro ⟨qs, rs, hqs, hrs, rfl⟩
          rw [hqs, hrs]
          rfl
      rw [List.forall_mem_cons, ← hx, ← hxs, List.flatMap_cons, List.flatMap_cons]
      constructor
      · constructor
        · -- neither part can print more than its own definitions
          rintro ⟨ps, hps, hindex, hmask⟩
          obtain ⟨qs, rs, hqs, hrs, rfl⟩ := (hparts ps).mp hps
          rw [texts_append] at hindex hmask
          obtain ⟨hindexq, hmaskq⟩ := hboundx qs hqs
          obtain ⟨hindexr, hmaskr⟩ := hboundxs rs hrs
          have hindexlen := congrArg List.length hindex
          have hmasklen := congrArg List.length hmask
          rw [List.length_append, List.length_append] at hindexlen hmasklen
          obtain ⟨hiq, hir⟩ := List.append_inj hindex (by omega)
          obtain ⟨hmq, hmr⟩ := List.append_inj hmask (by omega)
          exact ⟨⟨qs, hqs, hiq, hmq⟩, rs, hrs, hir, hmr⟩
        · rintro ⟨⟨qs, hqs, hiq, hmq⟩, rs, hrs, hir, hmr⟩
          refine ⟨qs ++ rs, (hparts _).mpr ⟨qs, rs, hqs, hrs, rfl⟩, ?_, ?_⟩
          · rw [texts_append, hiq, hir]
          · rw [texts_append, hmq, hmr]
      · intro ps hps
        obtain ⟨qs, rs, hqs, hrs, rfl⟩ := (hparts ps).mp hps
        obtain ⟨hindexq, hmaskq⟩ := hboundx qs hqs
        obtain ⟨hindexr, hmaskr⟩ := hboundxs rs hrs
        rw [texts_append, texts_append, List.length_append, List.length_append, List.length_append,
          List.length_append]
        omega

/-- The definitions for a section. -/
def sectionIndices (sec : Section) : List CStr := sec.regs.flatMap registerIndices

def sectionMasks (sh : Shifts) (sec : Section) : List CStr := sec.regs.flatMap (registerMasks sh)

/-- All names of a section are read without their blanks. -/
def SectionOk (sec : Section) : Prop := scanned sec.name ≠ [] ∧ ∀ reg ∈ sec.regs, RegisterOk reg

theorem headerSection_iff {sec : Section} (hshort : Section.Short sec) (range : Range) :
    (Emits (headerSection sh range sec) (sectionIndices sec) (sectionMasks sh sec) ↔ SectionOk sec) ∧
    Bounded (headerSection sh range sec) (sectionIndices sec) (sectionMasks sh sec) := by
  unfold headerSection SectionOk
  simp only [Option.bind_eq_bind]
  by_cases hempty : scanned sec.name = []
  · rw [skipBlank_empty hshort.name hempty]
    exact ⟨iff_of_false nofun fun h => h.1 hempty, nofun⟩
  · obtain ⟨s, hskip, htext⟩ := skipBlank_spec hshort.name hempty
    obtain ⟨t, ht⟩ := fprintf_section (notMem_trimmed sec.name)
    obtain ⟨hiff, hbounded⟩ := printAll_iff sec.regs fun reg hreg =>
      headerRegister_iff sh (hshort.regs reg hreg) range
    rw [hskip]
    simp only [Option.bind_some]
    rw [(htext (leading sec.name)).mpr (Or.inl rfl), Option.bind_some, ht, Option.bind_some]
    exact ⟨(emits_cons t).1.trans (hiff.trans (and_iff_right hempty).symm), (emits_cons t).2.mpr hbounded⟩

/-- The definitions for a list of ranges. -/
def allIndices (ranges : List Range) : List CStr :=
  ranges.flatMap fun range => range.sections.flatMap sectionIndices

def allMasks (sh : Shifts) (ranges : List Range) : List CStr :=
  ranges.flatMap fun range => range.sections.flatMap (sectionMasks sh)

/-- Each of the bits has one definition for its index and one for its mask, under the trimmed names,
and nothing outside of a name is read, if and only if there is something in each name, all bits of a
register are as much indented as the last ones, and only entries with bytes have bits. -/
theorem header_iff {ranges : List Range}
    (hshort : ∀ range ∈ ranges, ∀ sec ∈ range.sections, Section.Short sec) :
    Emits (header sh ranges) (allIndices ranges) (allMasks sh ranges) ↔
      ∀ range ∈ ranges, ∀ sec ∈ range.sections, SectionOk sec :=
  (printAll_iff ranges fun range hrange => printAll_iff range.sections fun sec hsec =>
    headerSection_iff sh (hshort range hrange sec hsec) range).1

private def fourBytes (fields : List Bits) : List Range :=
  [⟨0x1000, 4, [⟨"A ".toList, [⟨some " R".toList, some [], 0, 4, {}, fields⟩], false⟩], none⟩]

private theorem short_fourBytes {fields : List Bits} (h : ∀ b ∈ fields, b.name.length < 2 ^ 31) :
    ∀ range ∈ fourBytes fields, ∀ sec ∈ range.sections, Section.Short sec := by
  intro range hrange sec hsec
  obtain rfl := List.mem_singleton.mp hrange
  obtain rfl := List.mem_singleton.mp hsec
  refine ⟨show "A ".toList.length < 2 ^ 31 by decide, fun reg hreg => ?_⟩
  obtain rfl := List.mem_singleton.mp hreg
  exact ⟨show " R".toList.length < 2 ^ 31 by decide, h⟩

private theorem ok_fourBytes {fields : List Bits} : (∀ range ∈ fourBytes fields,
    ∀ sec ∈ range.sections, SectionOk sec) ↔ BitsOk fields := by
  constructor
  · intro h
    have hreg := (h _ List.mem_cons_self _ List.mem_cons_self).2 _ List.mem_cons_self
    exact hreg.2
  · intro h range hrange sec hsec
    obtain rfl := List.mem_singleton.mp hrange
    obtain rfl := List.mem_singleton.mp hsec
    refine ⟨show scanned "A ".toList ≠ [] by decide, fun reg hreg => ?_⟩
    obtain rfl := List.mem_singleton.mp hreg
    exact ⟨show scanned " R".toList ≠ [] by decide, h⟩

/-- Two names with one blank in front of each. -/
theorem indented_names_emitted : Emits (header ⟨fun _ _ => 0, fun _ _ => 0⟩
      (fourBytes [⟨" A".toList, 0, 4⟩, ⟨" B  ".toList, 4, 4⟩]))
    ["#define R_A\t\t0\n".toList, "#define R_B\t\t4\n".toList]
    ["#define R_A_MASK\t0xf\n".toList, "#define R_B_MASK\t0xf\n".toList] :=
  (header_iff _ (short_fourBytes (by decide))).mpr (ok_fourBytes.mpr (by decide))

/-- Only the second name has one: the mask of the first one is defined under the name `R_`. -/
theorem differing_names_not_emitted : ¬ Emits (header ⟨fun _ _ => 0, fun _ _ => 0⟩
      (fourBytes [⟨"A".toList, 0, 4⟩, ⟨" B".toList, 4, 4⟩]))
    (allIndices (fourBytes [⟨"A".toList, 0, 4⟩, ⟨" B".toList, 4, 4⟩]))
    (allMasks ⟨fun _ _ => 0, fun _ _ => 0⟩ (fourBytes [⟨"A".toList, 0, 4⟩, ⟨" B".toList, 4, 4⟩])) := by
  rintro ⟨ps, hps, -, hmask⟩
  have htexts : (header ⟨fun _ _ => 0, fun _ _ => 0⟩
      (fourBytes [⟨"A".toList, 0, 4⟩, ⟨" B".toList, 4, 4⟩])).map (texts .mask) =
      some ["#define R__MASK\t0xf\n".toList, "#define R_B_MASK\t0xf\n".toList] := by decide +kernel
  rw [hps, Option.map_some, hmask] at htexts
  revert htexts
  decide +kernel

end Vimgdb.Per.Header
