import Vimgdb.User.Per

/-!
# The checks of a peripheral file

The checks of `cmd_per_exec` are sums and products of 32 bits.

* `Register.Within`, `Range.Within`: the registers are inside of their range, and the bits inside of
  their register.
* `Register.Indexed`: so are the indices into the memory, two characters to a byte.
* `Register.Exact`: the sums do not wrap, or no more often than what they are compared with.
* `accepted_within_iff`: a file that is accepted holds what it should if and only if they do not.
-/

namespace Vimgdb.Per

open Programs

/-! ## What is meant -/

/-- The bits are inside of a register of so many bytes, unless they are none. -/
def Bits.Within (bits : Bits) (nbytes : BitVec 32) : Prop :=
  bits.nbits = 0 ∨ bits.idx.toNat + bits.nbits.toNat ≤ 8 * nbytes.toNat

/-- A register is inside of a range of so many bytes, unless it has none. -/
def Register.Lies (reg : Register) (size : BitVec 32) : Prop :=
  reg.nbytes = 0 ∨ reg.offset.toNat + reg.nbytes.toNat ≤ size.toNat

/-- A register is inside of its range, and its bits are inside of it. -/
def Register.Within (reg : Register) (size : BitVec 32) : Prop :=
  reg.Lies size ∧ ∀ bits ∈ reg.bits, bits.Within reg.nbytes

/-- What `cmd_per_update` reads of a register is inside of the memory of its range: the characters
from the first index on, and the one at the second index. -/
def Register.Indexed (reg : Register) (size : BitVec 32) : Prop :=
  reg.nbytes = 0 ∨
    (reg.offset * 2).toNat + (reg.nbytes * 2).toNat ≤ 2 * size.toNat ∧
      (reg.offset * 2 + reg.nbytes * 2).toNat ≤ 2 * size.toNat

/-- The sum for some bits does not wrap, unless the product it is compared with does. -/
def Bits.Exact (bits : Bits) (nbytes : BitVec 32) : Prop :=
  bits.idx.toNat + bits.nbits.toNat < 2 ^ 32 ∨ 2 ^ 29 ≤ nbytes.toNat

/-- The sum for a register does not wrap, and those for its bits are exact.  What has no bytes is not
checked, and is not to have bits. -/
def Register.Exact (reg : Register) : Prop :=
  if reg.nbytes = 0 then ∀ bits ∈ reg.bits, bits.nbits = 0
  else reg.offset.toNat + reg.nbytes.toNat < 2 ^ 32 ∧ ∀ bits ∈ reg.bits, bits.Exact reg.nbytes

/-- All registers of a range are as `P` says, which depends on the size of the range. -/
def Range.All (P : Register → BitVec 32 → Prop) (range : Range) : Prop :=
  ∀ sec ∈ range.sections, ∀ reg ∈ sec.regs, P reg range.size

variable {reg : Register} {bits : Bits} {size nbytes : BitVec 32} {range : Range}

/-! ## Sums -/

/-- Remainders are compared as the numbers are if and only if the quotients are. -/
theorem le_iff_div_le {x y w : Nat} (h : x % w ≤ y % w) : x ≤ y ↔ x / w ≤ y / w := by
  constructor
  · exact fun hle => Nat.div_le_div_right hle
  · intro hle
    calc x = w * (x / w) + x % w := (Nat.div_add_mod x w).symm
      _ ≤ w * (y / w) + y % w := Nat.add_le_add (Nat.mul_le_mul_left w hle) h
      _ = y := Nat.div_add_mod y w

/-- Bits that pass the check are inside of their register if and only if the sum is exact. -/
theorem Bits.within_iff (h : bits.inside nbytes = true) : bits.Within nbytes ↔ bits.Exact nbytes := by
  have hidx := bits.idx.isLt
  have hnbits := bits.nbits.isLt
  have hmod : (bits.idx.toNat + bits.nbits.toNat) % 2 ^ 32 ≤ 8 * nbytes.toNat % 2 ^ 32 := by
    unfold Bits.inside at h
    rw [Bool.not_eq_true', decide_eq_false_iff_not, BitVec.lt_def, BitVec.toNat_add,
      BitVec.toNat_mul, Nat.not_lt, Nat.mul_comm] at h
    exact h
  unfold Bits.Within Bits.Exact
  rw [le_iff_div_le hmod]
  constructor
  · rintro (hzero | hdiv)
    · left
      rw [hzero]
      show bits.idx.toNat + 0 < 2 ^ 32
      omega
    · omega
  · intro hexact
    right
    omega

/-- A register that passes the check is inside of its range if and only if the sum does not wrap. -/
theorem Register.le_size_iff (h : reg.inside size = true) :
    reg.offset.toNat + reg.nbytes.toNat ≤ size.toNat ↔
      reg.offset.toNat + reg.nbytes.toNat < 2 ^ 32 := by
  have hsize := size.isLt
  unfold Register.inside at h
  rw [Bool.not_eq_true', decide_eq_false_iff_not, BitVec.lt_def, BitVec.toNat_add] at h
  constructor <;> intro hle <;> omega

theorem Register.within_iff (h : reg.fits size = true) : reg.Within size ↔ reg.Exact := by
  unfold Register.Within Register.Lies Register.Exact
  by_cases hzero : reg.nbytes = 0
  · rw [if_pos hzero]
    refine ⟨fun hwithin bits hbits => ?_, fun hbits => ⟨Or.inl hzero, fun b hb => Or.inl (hbits b hb)⟩⟩
    rcases hwithin.2 bits hbits with hnone | hle
    · exact hnone
    · rw [hzero] at hle
      have hle : bits.idx.toNat + bits.nbits.toNat ≤ 8 * 0 := hle
      exact BitVec.eq_of_toNat_eq (show bits.nbits.toNat = 0 by omega)
  · unfold Register.fits at h
    rw [Bool.or_eq_true, Bool.and_eq_true, List.all_eq_true] at h
    obtain ⟨hinside, hbits⟩ := h.resolve_left fun heq => hzero (eq_of_beq heq)
    rw [if_neg hzero, Register.le_size_iff hinside]
    refine and_congr (or_iff_right hzero) (forall₂_congr fun bits hmem => ?_)
    exact Bits.within_iff (hbits bits hmem)

/-- A register inside of its range has its characters inside of the memory. -/
theorem Register.Within.indexed (h : reg.Within size) : reg.Indexed size := by
  rcases h.1 with hzero | hle
  · exact Or.inl hzero
  · have hdouble : ∀ x : BitVec 32, (x * 2).toNat ≤ 2 * x.toNat := by
      intro x
      rw [BitVec.toNat_mul, Nat.mul_comm]
      exact Nat.mod_le _ _
    have hoffset := hdouble reg.offset
    have hnbytes := hdouble reg.nbytes
    refine Or.inr ⟨by omega, ?_⟩
    rw [BitVec.toNat_add]
    exact (Nat.mod_le _ _).trans (by omega)

theorem Range.within_iff (h : range.fits = true) :
    range.All Register.Within ↔ range.All fun reg _ => reg.Exact := by
  unfold Range.fits at h
  simp only [List.all_eq_true] at h
  exact forall₂_congr fun sec hsec => forall₂_congr fun reg hreg =>
    Register.within_iff (h sec hsec reg hreg)

theorem Range.deescape_all {P : Register → BitVec 32 → Prop}
    (hP : ∀ reg name size, P { reg with name := name } size ↔ P reg size) :
    range.deescape.All P ↔ range.All P := by
  unfold Range.All Range.deescape
  simp only [List.mem_map, forall_exists_index, and_imp, forall_apply_eq_imp_iff₂, hP]

/-! ## What is left of a file -/

/-- A range without its memory. -/
def Range.bare (range : Range) : Range := { range with mem := none }

variable {acquired replies : Nat → Option CStr} {ranges ranges' : List Range} {s : State}

/-- The loop over the ranges deescapes names and reads memory, and all ranges pass the checks. -/
theorem bare_initRanges {i : Nat} (h : initRanges acquired i ranges = some (ranges', true)) :
    ranges'.map Range.bare = ranges.map (fun range => range.deescape.bare) ∧
      ∀ range ∈ ranges', range.fits = true := by
  induction ranges generalizing i ranges' with
  | nil =>
      cases h
      exact ⟨rfl, nofun⟩
  | cons range ranges ih =>
      unfold initRanges at h
      split at h
      · cases h
      · dsimp only at h
        split at h
        · next hfits =>
          rw [Option.bind_eq_bind, Option.bind_eq_some_iff] at h
          obtain ⟨⟨rest, ok⟩, hrest, heq⟩ := h
          cases heq
          obtain ⟨hbare, hall⟩ := ih hrest
          refine ⟨by rw [List.map_cons, List.map_cons, hbare]; rfl, fun r hr => ?_⟩
          rcases List.mem_cons.mp hr with rfl | hr
          · exact hfits
          · exact hall r hr
        · cases h

theorem bare_showRanges {n i : Nat} {sh sh' : Shown} {ok : Bool}
    (h : showRanges n replies i ranges sh = some (ranges', sh', ok)) :
    ranges'.map Range.bare = ranges.map Range.bare := by
  induction ranges generalizing i sh ranges' with
  | nil =>
      cases h
      rfl
  | cons range ranges ih =>
      unfold showRanges at h
      split at h
      · cases h
      · cases h
        rfl
      · rw [Option.bind_eq_bind, Option.bind_eq_some_iff] at h
        obtain ⟨⟨rest, sh'', ok'⟩, hrest, heq⟩ := h
        cases heq
        rw [List.map_cons, List.map_cons, ih hrest]
        rfl

/-- The update reads memory and leaves the rest of the ranges. -/
theorem bare_update {P : List Range → Option CStr → Prop} (window : Bool)
    (h : P (s.rangeLst.map Range.bare) s.perFile) :
    Post (attempt (update window replies)) (fun _ t => P (t.rangeLst.map Range.bare) t.perFile)
      (fun _ _ => False) s := by
  unfold update
  rw [post_attempt]
  split
  · rw [post_bind, post_get]
    split
    · exact post_undefined
    · next ranges' sh ok hshow =>
      rw [post_bind, post_set]
      have hbare := bare_showRanges hshow
      split
      · rw [post_pure, hbare]
        exact h
      · rw [post_throw, hbare]
        exact h
  · exact post_pure.mpr h

/-- The ranges behind a load that is accepted are those of the file, and pass the checks. -/
theorem post_load_accepted {file text : CStr} {window : Bool} (s : State) :
    Post (load file (some text) acquired window replies)
      (fun _ t => t.perFile = some file →
        t.rangeLst.map Range.bare = (perparse text).ranges.map (fun range => range.deescape.bare) ∧
          ∀ range ∈ t.rangeLst, range.fits = true) (fun _ _ => False) s := by
  unfold load cleanup
  rw [post_bind, post_modify]
  dsimp only
  rw [post_bind, post_modify]
  split
  · split
    · exact post_undefined
    · next ranges ok hinit =>
      rw [post_bind, post_modify]
      have hfits : ∀ {rs rs' : List Range}, rs.map Range.bare = rs'.map Range.bare →
          (∀ range ∈ rs', range.fits = true) → ∀ range ∈ rs, range.fits = true := by
        intro rs rs' heq hall range hmem
        obtain ⟨range', hmem', hbare⟩ := List.mem_map.mp (heq ▸ List.mem_map_of_mem hmem)
        have hsame : range.bare.fits = range'.bare.fits := by rw [hbare]
        exact hsame.trans (hall range' hmem')
      cases ok with
      | true =>
          rw [if_pos rfl, post_bind, post_modify]
          obtain ⟨hbare, hall⟩ := bare_initRanges hinit
          refine (bare_update (P := fun rs _ => rs = ranges.map Range.bare) window rfl).mono
            (fun _ t ht _ => ⟨ht.trans hbare, hfits ht hall⟩) fun _ _ hE => hE
      | false =>
          rw [if_neg Bool.false_ne_true, post_bind, post_modify]
          refine (bare_update (P := fun _ f => f = none) window rfl).mono (fun _ t ht hfile => ?_)
            fun _ _ hE => hE
          rw [ht] at hfile
          cases hfile
  · exact post_pure.mpr nofun

theorem forall_all_congr {P : Register → BitVec 32 → Prop}
    (h : ranges'.map Range.bare = ranges.map Range.bare) :
    (∀ range ∈ ranges', range.All P) ↔ ∀ range ∈ ranges, range.All P := by
  have hbare : ∀ rs : List Range, (∀ range ∈ rs, range.All P) ↔
      ∀ range ∈ rs.map Range.bare, range.All P := by
    intro rs
    rw [List.forall_mem_map]
    exact Iff.rfl
  rw [hbare ranges', hbare ranges, h]

/-! ## Accepted files -/

/-- Whatever file is accepted, its registers and bits are where they should be, and so is what is read
of the memory, if and only if no sum of its checks wraps more often than what it is compared with, and
what has no bytes has no bits. -/
theorem accepted_within_iff {file text : CStr} {window : Bool} {t : State} {r : Except Unit Unit}
    (hload : exec (load file (some text) acquired window replies) s = some (r, t))
    (haccepted : t.perFile = some file) :
    (∀ range ∈ t.rangeLst, range.All Register.Within ∧ range.All Register.Indexed) ↔
      ∀ range ∈ (perparse text).ranges, range.All fun reg _ => reg.Exact := by
  have hpost := post_load_accepted s _ hload
  have hleft : (∀ range ∈ t.rangeLst, range.All Register.Within ∧ range.All Register.Indexed) ↔
      ∀ range ∈ t.rangeLst, range.All Register.Within := by
    refine ⟨fun h range hmem => (h range hmem).1, fun h range hmem => ⟨h range hmem, ?_⟩⟩
    exact fun sec hsec reg hreg => (h range hmem sec hsec reg hreg).indexed
  cases r with
  | error e => exact absurd hpost id
  | ok _ =>
      obtain ⟨hbare, hfits⟩ := hpost haccepted
      have hexact : (∀ range ∈ t.rangeLst, range.All Register.Within) ↔
          ∀ range ∈ t.rangeLst, range.All fun reg _ => reg.Exact :=
        forall₂_congr fun range hmem => Range.within_iff (hfits range hmem)
      have hparsed : (∀ range ∈ t.rangeLst, range.All fun reg _ => reg.Exact) ↔
          ∀ range ∈ (perparse text).ranges.map Range.deescape, range.All fun reg _ => reg.Exact :=
        forall_all_congr (by rw [List.map_map]; exact hbare)
      rw [hleft, hexact, hparsed, List.forall_mem_map]
      exact forall₂_congr fun range _ => Range.deescape_all fun _ _ _ => Iff.rfl

/-- A register in a range of 16 bytes. -/
private def oneRegister (offset nbytes : BitVec 32) : Range where
  base := 0x40000000
  size := 16
  sections := [{ name := "A".toList, regs := [⟨some "R".toList, some [], offset, nbytes, {}, []⟩] }]

/-- The state behind a file that has been loaded. -/
private def loaded (range : Range) : State :=
  { perFile := some "p".toList, rangeLst := [{ range with mem := some [] }], load := 1 }

private theorem exec_load {text : CStr} {range : Range} (hparse : perparse text = ⟨[range], {}, true⟩)
    (hfits : Range.fits { range.deescape with mem := some [] } = true)
    (hdeescape : range.deescape = range) :
    exec (load "p".toList (some text) (fun _ => some []) false fun _ => none) {} =
      some (.ok (), loaded range) := by
  unfold load
  dsimp only
  rw [hparse]
  have hinit : initRanges (fun _ => some []) 0 [range] =
      some ([{ range with mem := some [] }], true) := by
    unfold initRanges
    dsimp only
    rw [if_pos hfits, hdeescape]
    rfl
  dsimp only
  rw [hinit]
  rfl

/-- A register at the end of the addresses, where the sum is 0. -/
def wrappingFile : CStr :=
  ("range 0x40000000 0x10\x7bsection \"A\"\x7b" ++
    "register \"R\" \"\" 0xfffffff0 0x10\x7b\x7d\x7d\x7d").toList

/-- It is accepted, although the register is not inside of its range. -/
theorem wrapping_file_not_within : ∃ t,
    exec (load "p".toList (some wrappingFile) (fun _ => some []) false fun _ => none) {} =
        some (.ok (), t) ∧ t.perFile = some "p".toList ∧
      ¬ ∀ range ∈ t.rangeLst, range.All Register.Within ∧ range.All Register.Indexed := by
  have hparse : perparse wrappingFile = ⟨[oneRegister 0xfffffff0 16], {}, true⟩ := by decide +kernel
  refine ⟨_, exec_load hparse (by decide) rfl, rfl, fun hall => ?_⟩
  obtain ⟨hzero | hle, -⟩ := (hall _ List.mem_cons_self).1 _ List.mem_cons_self _ List.mem_cons_self
  · revert hzero
    decide
  · revert hle
    decide

/-- A register at the end of its range. -/
def fittingFile : CStr :=
  ("range 0x40000000 0x10\x7bsection \"A\"\x7b" ++
    "register \"R\" \"\" 12 4\x7b\x7d\x7d\x7d").toList

/-- It is accepted, and inside of its range. -/
theorem fitting_file_within : ∃ t,
    exec (load "p".toList (some fittingFile) (fun _ => some []) false fun _ => none) {} =
        some (.ok (), t) ∧
      ∀ range ∈ t.rangeLst, range.All Register.Within ∧ range.All Register.Indexed := by
  have hparse : perparse fittingFile = ⟨[oneRegister 12 4], {}, true⟩ := by decide +kernel
  have hload := exec_load hparse (by decide) rfl
  refine ⟨_, hload, (accepted_within_iff hload rfl).mpr ?_⟩
  rw [hparse]
  unfold Range.All Register.Exact Bits.Exact
  decide

end Vimgdb.Per
