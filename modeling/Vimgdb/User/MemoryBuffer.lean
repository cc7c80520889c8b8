import Vimgdb.Lib.Runs
import Vimgdb.User.MemoryView

/-!
# The buffer for the characters of a row

`add` makes the buffer as large as the alignment asks for, and the update fills it at the indices that
the alignment leads to.

* `toNat_align`, `boundary_iff`, `toNat_align_sub`: addresses that are aligned to a power of 2.
* `indices`: where the buffer is filled; `indices_lt`: an update that comes to its end has filled it there.
* `indices_le`: with a power of 2 no index is above the alignment.
* `RowsFit`, `indices_lt_iff`: for other alignments it is the rows that decide.
* `Indexed`: the buffer is larger than all alignments, and all indices are inside.
* `run_indexed_iff`: the runs in which it is so.
-/

namespace Vimgdb.Memory

/-! ## Alignment -/

section
variable {k : Nat} {base : BitVec 32}

theorem lt_of_alignment (hbase : base.toNat = 2 ^ k) : k < 32 := by
  have hlt := base.isLt
  rw [hbase] at hlt
  exact (Nat.pow_lt_pow_iff_right (by decide)).mp hlt

theorem toNat_align (hbase : base.toNat = 2 ^ k) (x : BitVec 64) :
    (align x base).toNat = x.toNat / 2 ^ k * 2 ^ k := by
  have hmask : (base.zeroExtend 64 - 1).toNat = 2 ^ k - 1 := by
    have hpos : 0 < 2 ^ k := Nat.two_pow_pos k
    have hlt : 2 ^ k < 2 ^ 32 := Nat.pow_lt_pow_right (by decide) (lt_of_alignment hbase)
    rw [BitVec.toNat_sub, BitVec.toNat_setWidth, hbase]
    show (2 ^ 64 - 1 + 2 ^ k % 2 ^ 64) % 2 ^ 64 = _
    omega
  refine Nat.eq_of_testBit_eq fun i => ?_
  unfold align
  rw [BitVec.testBit_toNat, BitVec.getLsbD_and, BitVec.getLsbD_not,
    ← BitVec.testBit_toNat (base.zeroExtend 64 - 1), hmask, Nat.testBit_two_pow_sub_one,
    ← Nat.shiftLeft_eq, ← Nat.shiftRight_eq_div_pow, Nat.testBit_shiftLeft, Nat.testBit_shiftRight]
  by_cases hi : k ≤ i
  · rw [decide_eq_true hi, Nat.add_sub_cancel' hi, BitVec.testBit_toNat]
    by_cases hi' : i < 64
    · simp [hi', Nat.not_lt.mpr hi]
    · simp [BitVec.getLsbD_of_ge x i (Nat.not_lt.mp hi')]
  · simp [hi, Nat.not_le.mp hi]

/-- What a multiple of the alignment leaves. -/
theorem toNat_align_eq_sub (hbase : base.toNat = 2 ^ k) (x : BitVec 64) :
    (align x base).toNat = x.toNat - x.toNat % 2 ^ k := by
  rw [toNat_align hbase, Nat.div_mul_self_eq_mod_sub_self]

/-- Behind a multiple of the alignment there is room for the next one. -/
theorem add_le_of_mod_eq_zero {a b m : Nat} (ha : a % m = 0) (hb : b % m = 0) (h : a < b) :
    a + m ≤ b := by
  obtain ⟨c, rfl⟩ := Nat.dvd_of_mod_eq_zero ha
  obtain ⟨d, rfl⟩ := Nat.dvd_of_mod_eq_zero hb
  rw [← Nat.mul_succ]
  exact Nat.mul_le_mul_left m (Nat.lt_of_mul_lt_mul_left h)

theorem two_pow_mod (hk : k < 32) : 2 ^ 64 % 2 ^ k = 0 :=
  Nat.mod_eq_zero_of_dvd (Nat.pow_dvd_pow 2 (by omega))

theorem toNat_zeroExtend (hbase : base.toNat = 2 ^ k) : (base.zeroExtend 64).toNat = 2 ^ k := by
  rw [BitVec.toNat_setWidth, hbase, Nat.mod_eq_of_lt]
  exact Nat.pow_lt_pow_right (by decide) (Nat.lt_trans (lt_of_alignment hbase) (by decide))

/-- The next multiple of the alignment, from an address on. -/
theorem toNat_align_add (hbase : base.toNat = 2 ^ k) (x : BitVec 64) :
    (align (x + base.zeroExtend 64) base).toNat =
      (x.toNat + 2 ^ k) % 2 ^ 64 - x.toNat % 2 ^ k := by
  rw [toNat_align_eq_sub hbase, BitVec.toNat_add, toNat_zeroExtend hbase,
    Nat.mod_mod_of_dvd _ (Nat.dvd_of_mod_eq_zero (two_pow_mod (lt_of_alignment hbase))),
    Nat.add_mod_right]

theorem succ_mod {m : Nat} (hm : 0 < m) (x : Nat) :
    (x + 1) % m = if x % m + 1 = m then 0 else x % m + 1 := by
  have hlt := Nat.mod_lt x hm
  have hsplit : (x + 1) % m = (x % m + 1) % m := by
    conv_lhs => rw [← Nat.div_add_mod x m, Nat.add_assoc, Nat.mul_add_mod]
  rw [hsplit]
  split
  · next h => rw [h, Nat.mod_self]
  · next h => exact Nat.mod_eq_of_lt (by omega)

/-- Behind a byte a row ends if and only if the next address is a multiple of the alignment. -/
theorem boundary_iff (hbase : base.toNat = 2 ^ k) (x : BitVec 64) :
    x + 1 = align (x + base.zeroExtend 64) base ↔ (x.toNat + 1) % 2 ^ k = 0 := by
  have hk := lt_of_alignment hbase
  have hpos : 0 < 2 ^ k := Nat.two_pow_pos k
  have hlt : 2 ^ k < 2 ^ 32 := Nat.pow_lt_pow_right (by decide) hk
  have hword := two_pow_mod hk
  have hmod := Nat.mod_lt x.toNat hpos
  have hx := x.isLt
  have hsucc := succ_mod hpos x.toNat
  have hroom : (x.toNat + 1) % 2 ^ k = 0 → x.toNat + 1 < 2 ^ 64 → x.toNat + 1 + 2 ^ k ≤ 2 ^ 64 :=
    fun h => add_le_of_mod_eq_zero h hword
  have hlast : x.toNat + 1 = 2 ^ 64 → (x.toNat + 1) % 2 ^ k = 0 := fun h => h ▸ hword
  rw [← BitVec.toNat_inj, toNat_align_add hbase, BitVec.toNat_add]
  show (x.toNat + 1) % 2 ^ 64 = _ ↔ _
  generalize 2 ^ k = m at *
  generalize x.toNat = n at *
  split at hsucc <;> omega

/-- From an address up to the next multiple of the alignment. -/
theorem toNat_align_sub (hbase : base.toNat = 2 ^ k) (x : BitVec 64) :
    (align (x + base.zeroExtend 64) base - x).toNat = 2 ^ k - x.toNat % 2 ^ k := by
  have hk := lt_of_alignment hbase
  have hpos : 0 < 2 ^ k := Nat.two_pow_pos k
  have hlt : 2 ^ k < 2 ^ 32 := Nat.pow_lt_pow_right (by decide) hk
  have hmod := Nat.mod_lt x.toNat hpos
  have hx := x.isLt
  -- the sum has the same rest, so that it is not below it
  have hrest : x.toNat % 2 ^ k ≤ (x.toNat + 2 ^ k) % 2 ^ 64 := by
    have h : (x.toNat + 2 ^ k) % 2 ^ 64 % 2 ^ k = x.toNat % 2 ^ k := by
      rw [Nat.mod_mod_of_dvd _ (Nat.dvd_of_mod_eq_zero (two_pow_mod hk)), Nat.add_mod_right]
    rw [← h]
    exact Nat.mod_le _ _
  rw [BitVec.toNat_sub, toNat_align_add hbase]
  generalize 2 ^ k = m at *
  generalize x.toNat % m = r at *
  generalize x.toNat = n at *
  omega

/-- From the multiple of the alignment in front of an address up to it. -/
theorem gap_align (hbase : base.toNat = 2 ^ k) (x : BitVec 64) :
    gap (align x base) x = x.toNat % 2 ^ k := by
  have hk := lt_of_alignment hbase
  have hmod : x.toNat % 2 ^ k < 2 ^ k := Nat.mod_lt x.toNat (Nat.two_pow_pos k)
  have hlt : 2 ^ k < 2 ^ 32 := Nat.pow_lt_pow_right (by decide) hk
  have halign := toNat_align_eq_sub hbase x
  have hle := Nat.mod_le x.toNat (2 ^ k)
  have hx := x.isLt
  -- both have the same sign
  have hsign : 2 ^ 63 ≤ x.toNat → 2 ^ 63 ≤ x.toNat - x.toNat % 2 ^ k := by
    intro hhigh
    have h63 : 2 ^ 63 % 2 ^ k = 0 := Nat.mod_eq_zero_of_dvd (Nat.pow_dvd_pow 2 (by omega))
    have hmul : (x.toNat - x.toNat % 2 ^ k) % 2 ^ k = 0 := by
      rw [← Nat.div_mul_self_eq_mod_sub_self]
      exact Nat.mul_mod_left _ _
    by_contra hlow
    have := add_le_of_mod_eq_zero hmul h63 (Nat.not_le.mp hlow)
    omega
  have hslt : (align x base).slt x = true ↔ 0 < x.toNat % 2 ^ k := by
    rw [BitVec.slt_iff_toInt_lt, BitVec.toInt_eq_toNat_cond, BitVec.toInt_eq_toNat_cond, halign]
    split_ifs <;> omega
  unfold gap
  split
  · rw [BitVec.toNat_sub, halign]
    omega
  · next h =>
    have hzero := mt hslt.mpr h
    omega

theorem gap_align_add_le (hbase : base.toNat = 2 ^ k) (x : BitVec 64) :
    gap x (align (x + base.zeroExtend 64) base) ≤ 2 ^ k - x.toNat % 2 ^ k := by
  unfold gap
  split
  · rw [toNat_align_sub hbase]
  · exact Nat.zero_le _

/-- From an address up to the next multiple of the alignment, in the lower half of the addresses. -/
theorem gap_align_add (hbase : base.toNat = 2 ^ k) {x : BitVec 64} (hx : x.toNat + 2 ^ k < 2 ^ 63) :
    gap x (align (x + base.zeroExtend 64) base) = 2 ^ k - x.toNat % 2 ^ k := by
  have hmod : x.toNat % 2 ^ k < 2 ^ k := Nat.mod_lt x.toNat (Nat.two_pow_pos k)
  have hslt : x.slt (align (x + base.zeroExtend 64) base) = true := by
    rw [BitVec.slt_iff_toInt_lt, BitVec.toInt_eq_toNat_cond, BitVec.toInt_eq_toNat_cond,
      toNat_align_add hbase]
    split_ifs <;> omega
  unfold gap
  rw [if_pos hslt, toNat_align_sub hbase]

theorem align_eq_self_iff (hbase : base.toNat = 2 ^ k) (x : BitVec 64) :
    align x base = x ↔ x.toNat % 2 ^ k = 0 := by
  have hle := Nat.mod_le x.toNat (2 ^ k)
  rw [← BitVec.toNat_inj, toNat_align_eq_sub hbase]
  omega

end

namespace View

open Buffers Escape Printf Programs Runs

/-! ## Indices -/

/-- Where the loop over the bytes fills the buffer, and where it ends the rows. -/
def byteIndices (alignment : BitVec 32) : Nat → BitVec 64 → Nat → List Nat
  | 0, _, _ => []
  | n + 1, addr, j => j ::
      if addr + 1 = align (addr + alignment.zeroExtend 64) alignment then
        (j + 1) :: byteIndices alignment n (addr + 1) 0
      else byteIndices alignment n (addr + 1) (j + 1)

/-- Where the buffer is filled for a segment. -/
def indices (mem : Segment) (addr : BitVec 64) : List Nat :=
  let pad := gap (align addr mem.alignment) addr
  let d := dumpBytes mem.alignment mem.length.toNat addr pad 0
  let more := if align d.1 mem.alignment ≠ d.1 then
    gap d.1 (align (d.1 + mem.alignment.zeroExtend 64) mem.alignment) else 0
  List.range pad ++ byteIndices mem.alignment mem.length.toNat addr pad ++
    List.range' d.2.1 more ++ [d.2.1 + more]

variable {junk : Char} {a j j' n : Nat} {sheet sheet' : Sheet} {mem : Segment}
  {addr addr' : BitVec 64} {content old : CStr}

theorem lt_of_store {c : Char} (hr : sheet.asciib.Recorded) (h : sheet.store j c = some sheet') :
    j < sheet.asciib.max.toNat := by
  obtain ⟨mem, hmem, -⟩ := Option.map_eq_some_iff.mp h
  rw [← hr]
  unfold write at hmem
  split at hmem
  · assumption
  · cases hmem

/-- What is inside of the buffer is so when it has become larger. -/
theorem Extends.lt (h : Extends n sheet sheet') (hj : j < sheet.asciib.max.toNat) :
    j < sheet'.asciib.max.toNat := Nat.lt_of_lt_of_le hj (BitVec.le_def.mp h.max)

theorem fill_lt (hr : sheet.asciib.Recorded) (h : fill a n j sheet = some (j', sheet')) :
    ∀ i ∈ List.range' j n, i < sheet'.asciib.max.toNat := by
  induction n generalizing j sheet with
  | zero => nofun
  | succ n ih =>
      unfold fill at h
      simp only [Option.bind_eq_bind, Option.bind_eq_some_iff] at h
      obtain ⟨sheet₁, hadd, sheet₂, hstore, hrest⟩ := h
      obtain ⟨t, -, hext⟩ := extends_add hadd
      have hr₁ := hext.recorded hr
      have hext' := extends_store hstore
      intro i hi
      rw [List.range'_succ] at hi
      rcases List.mem_cons.mp hi with rfl | hi
      · exact (extends_fill hrest).lt (hext'.lt (lt_of_store hr₁ hstore))
      · exact ih (hext'.recorded hr₁) hrest i hi

theorem flush_lt (hr : sheet.asciib.Recorded) (h : flush junk a j sheet = some sheet') :
    j < sheet.asciib.max.toNat := by
  unfold flush at h
  obtain ⟨sheet₁, hstore, -⟩ := Option.bind_eq_some_iff.mp h
  exact lt_of_store hr hstore

theorem showByte_lt {i : BitVec 32} (hr : sheet.asciib.Recorded)
    (h : showByte a content old i j sheet = some sheet') : j < sheet'.asciib.max.toNat := by
  have hext := extends_showByte h
  unfold showByte at h
  simp only [Option.bind_eq_bind, Option.bind_eq_some_iff] at h
  obtain ⟨modified, -, sheet₁, hadd, hi, -, lo, -, hstore⟩ := h
  obtain ⟨t, -, hext₁⟩ := extends_add hadd
  exact (extends_store hstore).lt (lt_of_store (hext₁.recorded hr) hstore)

theorem showBytes_lt {i : BitVec 32} (hr : sheet.asciib.Recorded) (hroom : 2 * j ≤ sheet.chars)
    (h : showBytes junk a mem content old n i addr j sheet = some (addr', j', sheet')) :
    ∀ x ∈ byteIndices mem.alignment n addr j, x < sheet'.asciib.max.toNat := by
  induction n generalizing i addr j sheet with
  | zero => nofun
  | succ n ih =>
      unfold showBytes at h
      simp only [Option.bind_eq_bind, Option.bind_eq_some_iff] at h
      obtain ⟨sheet₁, hbyte, h⟩ := h
      have hext := extends_showByte hbyte
      have hr₁ := hext.recorded hr
      have hj := showByte_lt hr hbyte
      have hroom₁ : 2 * (j + 1) ≤ sheet₁.chars := by
        have := hext.chars
        omega
      unfold byteIndices
      split at h
      · next hboundary =>
        obtain ⟨sheet₂, hend, hrest⟩ := Option.bind_eq_some_iff.mp h
        have hext₂ := extends_endRow hroom₁ hend
        have hext₃ := (extends_showBytes (Nat.zero_le _) hrest).1
        have hflush : j + 1 < sheet₁.asciib.max.toNat := by
          unfold endRow at hend
          obtain ⟨sheet₃, hflush, -⟩ := Option.bind_eq_some_iff.mp hend
          exact flush_lt hr₁ hflush
        rw [if_pos hboundary]
        intro x hx
        rcases List.mem_cons.mp hx with rfl | hx
        · exact hext₃.lt (hext₂.lt hj)
        · rcases List.mem_cons.mp hx with rfl | hx
          · exact hext₃.lt (hext₂.lt hflush)
          · exact ih (hext₂.recorded hr₁) (Nat.zero_le _) hrest x hx
      · next hboundary =>
        rw [if_neg hboundary]
        intro x hx
        rcases List.mem_cons.mp hx with rfl | hx
        · exact (extends_showBytes hroom₁ h).1.lt hj
        · exact ih hr₁ hroom₁ h x hx

/-- The update fills the buffer at all of the indices. -/
theorem indices_lt (hr : sheet.asciib.Recorded)
    (h : showRows junk a mem addr content old sheet = some sheet') :
    ∀ x ∈ indices mem addr, x < sheet'.asciib.max.toNat := by
  unfold showRows at h
  simp only [Option.bind_eq_bind, Option.bind_eq_some_iff] at h
  obtain ⟨sheet₁, haddr, ⟨j₁, sheet₂⟩, hfill, ⟨addr₂, j₂, sheet₃⟩, hbytes, ⟨j₃, sheet₄⟩, hpad, sheet₅,
    hflush, h⟩ := h
  dsimp only at hfill hbytes hpad hflush h
  have h₁ := extends_showAddr haddr
  have h₂ := extends_fill hfill
  obtain ⟨hj₁, -⟩ := shown_fill hfill
  have hroom₂ : 2 * j₁ ≤ sheet₂.chars := by
    have := h₂.chars
    omega
  obtain ⟨h₃, hroom₃⟩ := extends_showBytes hroom₂ hbytes
  have h₄ := extends_fill hpad
  obtain ⟨hj₃, -⟩ := shown_fill hpad
  have hroom₄ : 2 * j₃ ≤ sheet₄.chars := by
    have := h₄.chars
    omega
  have h₅ := extends_flush hroom₄ hflush
  have h₆ : Extends 0 sheet₅ sheet' := by
    split at h
    · exact extends_blankLine h
    · cases h
      exact extends_refl _
  have hr₁ := h₁.recorded hr
  have hr₂ := h₂.recorded hr₁
  have hr₃ := h₃.recorded hr₂
  obtain ⟨-, hdump⟩ := shown_showBytes hbytes
  rw [dumpBytes_lines] at hdump
  obtain ⟨haddr₂, hdump⟩ := Prod.mk.inj hdump
  obtain ⟨hj₂, -⟩ := Prod.mk.inj hdump
  rw [Nat.zero_add] at hj₁
  rw [hj₁] at haddr₂ hj₂ hbytes
  unfold indices
  dsimp only
  rw [haddr₂, hj₂, ← hj₃]
  intro x hx
  rw [List.mem_append, List.mem_append, List.mem_append, List.mem_singleton] at hx
  rcases hx with ((hx | hx) | hx) | rfl
  · have hpad₁ := fill_lt hr₁ hfill x (by rwa [List.range_eq_range'] at hx)
    exact h₆.lt (h₅.lt (h₄.lt (h₃.lt hpad₁)))
  · exact h₆.lt (h₅.lt (h₄.lt (showBytes_lt hr₂ (hj₁ ▸ hroom₂) hbytes x hx)))
  · exact h₆.lt (h₅.lt (fill_lt hr₃ hpad x hx))
  · exact h₆.lt (h₅.lt (flush_lt (h₄.recorded hr₃) hflush))

/-! ## Powers of 2 -/

/-- What the check of `add` is for. -/
def IsPowerOfTwo (v : BitVec 32) : Prop := ∃ k, v.toNat = 2 ^ k

variable {k : Nat} {alignment : BitVec 32}

theorem toNat_succ_mod (hk : k < 32) (x : BitVec 64) :
    (x + 1).toNat % 2 ^ k = (x.toNat + 1) % 2 ^ k := by
  rw [BitVec.toNat_add]
  exact Nat.mod_mod_of_dvd _ (Nat.dvd_of_mod_eq_zero (two_pow_mod hk))

/-- The index in the buffer is that of the byte in its row. -/
theorem dumpBytes_index (hk : alignment.toNat = 2 ^ k) (n : Nat) (addr : BitVec 64) (lines : BitVec 32) :
    (dumpBytes alignment n addr (addr.toNat % 2 ^ k) lines).2.1 =
      (dumpBytes alignment n addr (addr.toNat % 2 ^ k) lines).1.toNat % 2 ^ k := by
  induction n generalizing addr lines with
  | zero => rfl
  | succ n ih =>
      have hnext := toNat_succ_mod (lt_of_alignment hk) addr
      have hsucc := succ_mod (Nat.two_pow_pos k) addr.toNat
      have hstep := ih (addr + 1)
      have hboundary := boundary_iff hk addr
      unfold dumpBytes
      rw [hnext] at hstep
      split
      · next h =>
        rw [hboundary.mp h] at hstep
        exact hstep (lines + 1)
      · next h =>
        rw [if_neg fun hend => h (hboundary.mpr (by rw [hsucc, if_pos hend]))] at hsucc
        rw [hsucc] at hstep
        exact hstep lines

theorem byteIndices_le (hk : alignment.toNat = 2 ^ k) (n : Nat) (addr : BitVec 64) :
    ∀ x ∈ byteIndices alignment n addr (addr.toNat % 2 ^ k), x ≤ 2 ^ k := by
  induction n generalizing addr with
  | zero => nofun
  | succ n ih =>
      have hnext := toNat_succ_mod (lt_of_alignment hk) addr
      have hlt := Nat.mod_lt addr.toNat (Nat.two_pow_pos k)
      have hsucc := succ_mod (Nat.two_pow_pos k) addr.toNat
      have hstep := ih (addr + 1)
      have hboundary := boundary_iff hk addr
      rw [hnext] at hstep
      unfold byteIndices
      intro x hx
      rcases List.mem_cons.mp hx with rfl | hx
      · exact Nat.le_of_lt hlt
      · split at hx
        · next h =>
          rw [hboundary.mp h] at hstep
          rcases List.mem_cons.mp hx with rfl | hx
          · exact hlt
          · exact hstep x hx
        · next h =>
          rw [if_neg fun hend => h (hboundary.mpr (by rw [hsucc, if_pos hend]))] at hsucc
          rw [hsucc] at hstep
          exact hstep x hx

/-- With a power of 2 no index is above the alignment. -/
theorem indices_le (h : IsPowerOfTwo mem.alignment) (addr : BitVec 64) :
    ∀ x ∈ indices mem addr, x ≤ mem.alignment.toNat := by
  obtain ⟨k, hk⟩ := h
  have hlt : ∀ x : BitVec 64, x.toNat % 2 ^ k < 2 ^ k := fun x =>
    Nat.mod_lt x.toNat (Nat.two_pow_pos k)
  have hindex := dumpBytes_index hk mem.length.toNat addr 0
  unfold indices
  dsimp only
  rw [gap_align hk, hk, hindex]
  generalize (dumpBytes mem.alignment mem.length.toNat addr (addr.toNat % 2 ^ k) 0).1 = end_
  have hmore : (if align end_ mem.alignment ≠ end_ then
      gap end_ (align (end_ + mem.alignment.zeroExtend 64) mem.alignment) else 0) ≤
      2 ^ k - end_.toNat % 2 ^ k := by
    split
    · exact gap_align_add_le hk end_
    · exact Nat.zero_le _
  have hend := hlt end_
  have hstart := hlt addr
  intro x hx
  rw [List.mem_append, List.mem_append, List.mem_append, List.mem_singleton] at hx
  rcases hx with ((hx | hx) | hx) | rfl
  · have := List.mem_range.mp hx
    omega
  · exact byteIndices_le hk _ addr x hx
  · obtain ⟨i, hi, rfl⟩ := List.mem_range'.mp hx
    omega
  · omega

/-! ## Other alignments -/

/-- A row ends behind the byte at an address. -/
def EndsRow (alignment : BitVec 32) (addr : BitVec 64) : Prop :=
  addr + 1 = align (addr + alignment.zeroExtend 64) alignment

/-- What is in front of the first byte of a segment in its row. -/
def front (alignment : BitVec 32) (addr : BitVec 64) : Nat := gap (align addr alignment) addr

/-- What is behind the last byte of a segment in its row, from the address behind it on. -/
def filling (alignment : BitVec 32) (addr : BitVec 64) : Nat :=
  if align addr alignment ≠ addr then gap addr (align (addr + alignment.zeroExtend 64) alignment) else 0

/-- No row ends behind the bytes from `i` up to `j`. -/
def Unbroken (alignment : BitVec 32) (addr : BitVec 64) (i j : Nat) : Prop :=
  ∀ k, i ≤ k → k < j → ¬ EndsRow alignment (addr + BitVec.ofNat 64 k)

/-- The rows of `n` bytes are shorter than `size`, where `pad` is in front of the first byte and `more` behind
the last one, if that does not end its row. -/
structure RowsFit (size : Nat) (alignment : BitVec 32) (pad more : Nat) (addr : BitVec 64) (n : Nat) :
    Prop where
  rows : ∀ i j, i ≤ j → j ≤ n → Unbroken alignment addr i (j - 1) → (if i = 0 then pad else 0) + (j - i) < size
  last : ∀ i ≤ n, Unbroken alignment addr i n → (if i = 0 then pad else 0) + (n - i) + more < size

variable {size pad more : Nat}

theorem unbroken_succ {i j : Nat} :
    Unbroken alignment addr (i + 1) j ↔ Unbroken alignment (addr + 1) i (j - 1) := by
  have hnext : ∀ k, addr + 1 + BitVec.ofNat 64 k = addr + BitVec.ofNat 64 (k + 1) := by
    intro k
    rw [BitVec.ofNat_add, BitVec.add_comm (BitVec.ofNat 64 k), BitVec.add_assoc]
    rfl
  constructor
  · intro h k hi hj
    rw [hnext]
    exact h (k + 1) (Nat.succ_le_succ hi) (by omega)
  · intro h k hi hj
    obtain ⟨k, rfl⟩ := Nat.exists_eq_succ_of_ne_zero (show k ≠ 0 by omega)
    have hk := h k (by omega) (by omega)
    rwa [hnext] at hk

/-- The first byte ends its row. -/
theorem not_unbroken_of_endsRow {j : Nat} (h : EndsRow alignment addr) (hj : 0 < j) :
    ¬ Unbroken alignment addr 0 j := by
  intro hunbroken
  have hfirst := hunbroken 0 (Nat.le_refl 0) hj
  rw [BitVec.add_zero] at hfirst
  exact hfirst h

/-- The row goes on behind the first byte. -/
theorem unbroken_zero {j : Nat} (h : ¬ EndsRow alignment addr) :
    Unbroken alignment addr 0 j ↔ Unbroken alignment (addr + 1) 0 (j - 1) := by
  rw [← unbroken_succ]
  constructor
  · exact fun hunbroken k _ hk => hunbroken k (Nat.zero_le k) hk
  · intro hunbroken k _ hk
    rcases Nat.eq_zero_or_pos k with rfl | hpos
    · rwa [BitVec.add_zero]
    · exact hunbroken k hpos hk

/-- The first byte ends its row, and the other rows are behind it. -/
theorem rowsFit_succ_of_endsRow (h : EndsRow alignment addr) :
    RowsFit size alignment pad more addr (n + 1) ↔
      pad + 1 < size ∧ RowsFit size alignment 0 more (addr + 1) n := by
  constructor
  · rintro ⟨hrows, hlast⟩
    refine ⟨hrows 0 1 (Nat.zero_le _) (by omega) fun k _ hk => absurd hk (Nat.not_lt_zero k), ?_, ?_⟩
    · intro i j hij hj hunbroken
      have hrow := hrows (i + 1) (j + 1) (by omega) (by omega) (unbroken_succ.mpr hunbroken)
      rw [if_neg (Nat.succ_ne_zero i), Nat.add_sub_add_right] at hrow
      rwa [ite_self]
    · intro i hi hunbroken
      have hrow := hlast (i + 1) (by omega) (unbroken_succ.mpr hunbroken)
      rw [if_neg (Nat.succ_ne_zero i), Nat.add_sub_add_right] at hrow
      rwa [ite_self]
  · rintro ⟨hpad, hrows, hlast⟩
    constructor
    · intro i j hij hj hunbroken
      cases i with
      | zero =>
          rcases Nat.lt_or_ge 1 j with hlt | hle
          · exact absurd hunbroken (not_unbroken_of_endsRow h (by omega))
          · rw [if_pos rfl]
            omega
      | succ i =>
          obtain ⟨j, rfl⟩ := Nat.exists_eq_succ_of_ne_zero (show j ≠ 0 by omega)
          have hrow := hrows i j (by omega) (by omega) (unbroken_succ.mp hunbroken)
          rw [if_neg (Nat.succ_ne_zero i)]
          rw [ite_self] at hrow
          omega
    · intro i hi hunbroken
      cases i with
      | zero => exact absurd hunbroken (not_unbroken_of_endsRow h (Nat.succ_pos n))
      | succ i =>
          have hrow := hlast i (by omega) (unbroken_succ.mp hunbroken)
          rw [if_neg (Nat.succ_ne_zero i)]
          rw [ite_self] at hrow
          omega

/-- The first byte is in front of the others of its row. -/
theorem rowsFit_succ_of_not_endsRow (h : ¬ EndsRow alignment addr) :
    RowsFit size alignment pad more addr (n + 1) ↔ RowsFit size alignment (pad + 1) more (addr + 1) n := by
  constructor
  · rintro ⟨hrows, hlast⟩
    constructor
    · intro i j hij hj hunbroken
      cases i with
      | zero =>
          have hrow := hrows 0 (j + 1) (by omega) (by omega) ((unbroken_zero h).mpr hunbroken)
          rw [if_pos rfl] at hrow ⊢
          omega
      | succ i =>
          have hrow := hrows (i + 2) (j + 1) (by omega) (by omega) (unbroken_succ.mpr hunbroken)
          rw [if_neg (Nat.succ_ne_zero _)] at hrow ⊢
          omega
    · intro i hi hunbroken
      cases i with
      | zero =>
          have hrow := hlast 0 (Nat.zero_le _) ((unbroken_zero h).mpr hunbroken)
          rw [if_pos rfl] at hrow ⊢
          omega
      | succ i =>
          have hrow := hlast (i + 2) (by omega) (unbroken_succ.mpr hunbroken)
          rw [if_neg (Nat.succ_ne_zero _)] at hrow ⊢
          omega
  · rintro ⟨hrows, hlast⟩
    constructor
    · intro i j hij hj hunbroken
      cases i with
      | zero =>
          have hrow := hrows 0 (j - 1) (by omega) (by omega) ((unbroken_zero h).mp hunbroken)
          rw [if_pos rfl] at hrow ⊢
          omega
      | succ i =>
          have hrow := hrows i (j - 1) (by omega) (by omega) (unbroken_succ.mp hunbroken)
          rw [if_neg (Nat.succ_ne_zero _)]
          split at hrow <;> omega
    · intro i hi hunbroken
      cases i with
      | zero =>
          have hrow := hlast 0 (Nat.zero_le _) ((unbroken_zero h).mp hunbroken)
          rw [if_pos rfl] at hrow ⊢
          omega
      | succ i =>
          have hrow := hlast i (by omega) (unbroken_succ.mp hunbroken)
          rw [if_neg (Nat.succ_ne_zero _)]
          split at hrow <;> omega

/-- There is room for the padding. -/
theorem RowsFit.pad_lt (h : RowsFit size alignment pad more addr n) : pad < size :=
  h.rows 0 0 (Nat.le_refl 0) (Nat.zero_le n) fun k _ hk => absurd hk (Nat.not_lt_zero k)

/-- The indices for the bytes, and the one behind the last row. -/
theorem byteIndices_lt_iff (n : Nat) (addr : BitVec 64) (j : Nat) (lines : BitVec 32) :
    (∀ x ∈ byteIndices alignment n addr j, x < size) ∧ (dumpBytes alignment n addr j lines).2.1 + more < size ↔
      RowsFit size alignment j more addr n := by
  induction n generalizing addr j lines with
  | zero =>
      constructor
      · rintro ⟨-, hlast⟩
        change j + more < size at hlast
        constructor
        · intro i k hik hk _
          split <;> omega
        · intro i hi _
          split <;> omega
      · intro h
        exact ⟨nofun, h.last 0 (Nat.le_refl 0) fun k _ hk => absurd hk (Nat.not_lt_zero k)⟩
  | succ n ih =>
      unfold byteIndices dumpBytes
      by_cases hends : addr + 1 = align (addr + alignment.zeroExtend 64) alignment
      · rw [rowsFit_succ_of_endsRow hends, ← ih (addr + 1) 0 (lines + 1), if_pos hends, if_pos hends,
          List.forall_mem_cons, List.forall_mem_cons]
        constructor
        · rintro ⟨⟨-, hend, hrest⟩, hlast⟩
          exact ⟨hend, hrest, hlast⟩
        · rintro ⟨hend, hrest, hlast⟩
          exact ⟨⟨by omega, hend, hrest⟩, hlast⟩
      · rw [rowsFit_succ_of_not_endsRow hends, ← ih (addr + 1) (j + 1) lines, if_neg hends, if_neg hends,
          List.forall_mem_cons]
        refine ⟨fun h => ⟨h.1.2, h.2⟩, fun h => ⟨⟨?_, h.1⟩, h.2⟩⟩
        have hpad := ((ih (addr + 1) (j + 1) lines).mp h).pad_lt
        omega

theorem dumpBytes_address (n : Nat) (addr : BitVec 64) (j : Nat) (lines : BitVec 32) :
    (dumpBytes alignment n addr j lines).1 = addr + BitVec.ofNat 64 n := by
  induction n generalizing addr j lines with
  | zero => exact (BitVec.add_zero addr).symm
  | succ n ih =>
      have hnext : addr + 1 + BitVec.ofNat 64 n = addr + BitVec.ofNat 64 (n + 1) := by
        rw [BitVec.ofNat_add, BitVec.add_comm (BitVec.ofNat 64 n), BitVec.add_assoc]
        rfl
      unfold dumpBytes
      split <;> rw [ih, hnext]

/-- The address behind a segment. -/
def behind (mem : Segment) (addr : BitVec 64) : BitVec 64 := addr + BitVec.ofNat 64 mem.length.toNat

/-- All indices are inside of a buffer iff the rows are shorter than it. -/
theorem indices_lt_iff (size : Nat) (mem : Segment) (addr : BitVec 64) :
    (∀ x ∈ indices mem addr, x < size) ↔ RowsFit size mem.alignment (front mem.alignment addr)
      (filling mem.alignment (behind mem addr)) addr mem.length.toNat := by
  have haddr := @dumpBytes_address mem.alignment mem.length.toNat addr (front mem.alignment addr) 0
  rw [← byteIndices_lt_iff mem.length.toNat addr _ 0]
  unfold indices
  dsimp only
  rw [show gap (align addr mem.alignment) addr = front mem.alignment addr from rfl, haddr]
  change (∀ x ∈ _ ++ _ ++ List.range' _ (filling mem.alignment (behind mem addr)) ++
    [_ + filling mem.alignment (behind mem addr)], x < size) ↔ _
  generalize filling mem.alignment (behind mem addr) = more
  constructor
  · intro h
    exact ⟨fun x hx => h x (by simp [hx]), h _ (by simp)⟩
  · intro h
    have hpad := ((byteIndices_lt_iff _ _ _ _).mp h).pad_lt
    obtain ⟨hbytes, hlast⟩ := h
    intro x hx
    rw [List.mem_append, List.mem_append, List.mem_append, List.mem_singleton] at hx
    rcases hx with ((hx | hx) | hx) | rfl
    · exact Nat.lt_trans (List.mem_range.mp hx) hpad
    · exact hbytes x hx
    · obtain ⟨i, hi, rfl⟩ := List.mem_range'.mp hx
      omega
    · exact hlast

/-! ## Runs -/

/-- The buffer is filled inside of it for a segment that is shown. -/
def Inside (max : BitVec 32) (mem : Segment) : Prop :=
  mem.expanded = true → ∀ begin ∈ mem.begin, ∀ i ∈ indices mem (strtollHex begin), i < max.toNat

/-- The buffer is larger than the alignments of all segments, and it is filled inside of it. -/
def Indexed (s : State) : Prop :=
  ∀ e ∈ s.memLst, e.2.alignment < s.asciib.max ∧ Inside s.asciib.max e.2

/-- The rows of a segment are shorter than a buffer. -/
def Narrow (size : Nat) (mem : Segment) : Prop := ∀ begin ∈ mem.begin,
  RowsFit size mem.alignment (front mem.alignment (strtollHex begin))
    (filling mem.alignment (behind mem (strtollHex begin))) (strtollHex begin) mem.length.toNat

/-- An alignment that passes the check is below 2 ^ 31, or the buffer is larger than it already; and if it is no
power of 2, the rows of its segment are shorter than the buffer, which is made as large as it asks for. -/
def Fitting (pwr2 : BitVec 32 → Bool) (s : State) : Event → Prop
  | .edit (.add (some m) (some v)) => pwr2 v = true → (v.toNat < 2 ^ 31 ∨ v < s.asciib.max) ∧
      (¬ IsPowerOfTwo v → Narrow (max s.asciib.max.toNat (v * 2 + 1).toNat) ⟨m.begin, m.length, v, true⟩)
  | _ => True

/-- The buffer is larger than the alignment of a segment, and it is filled inside of it, folded or not. -/
def Ample (max : BitVec 32) (mem : Segment) : Prop := mem.alignment < max ∧
  ∀ begin ∈ mem.begin, ∀ i ∈ indices mem (strtollHex begin), i < max.toNat

theorem ample_iff {max : BitVec 32} : Ample max mem ↔
    mem.alignment < max ∧ (¬ IsPowerOfTwo mem.alignment → Narrow max.toNat mem) := by
  refine and_congr_right fun hlt => ?_
  by_cases hpow : IsPowerOfTwo mem.alignment
  · refine iff_of_true (fun begin _ i hi => ?_) fun h => absurd hpow h
    exact Nat.lt_of_le_of_lt (indices_le hpow _ i hi) (BitVec.lt_def.mp hlt)
  · rw [forall_prop_of_true hpow]
    exact forall₂_congr fun begin _ => indices_lt_iff max.toNat mem (strtollHex begin)

theorem Ample.indexed {s : State} (h : ∀ e ∈ s.memLst, Ample s.asciib.max e.2) : Indexed s :=
  fun e he => ⟨(h e he).1, fun _ => (h e he).2⟩

theorem Ample.mono {max max' : BitVec 32} (h : Ample max mem) (hmax : max ≤ max') : Ample max' mem := by
  have hle := BitVec.le_def.mp hmax
  refine ⟨BitVec.lt_def.mpr (Nat.lt_of_lt_of_le (BitVec.lt_def.mp h.1) hle), fun begin hbegin i hi => ?_⟩
  exact Nat.lt_of_lt_of_le (h.2 begin hbegin i hi) hle

/-- With the alignment that is taken by default there is always room. -/
theorem ample_default {begin : Option CStr} {length max : BitVec 32} (h : 17 ≤ max) :
    Ample max ⟨begin, length, 8, true⟩ := by
  have hlt : (8 : BitVec 32) < 17 := by decide
  have hle := BitVec.le_def.mp h
  exact ample_iff.mpr ⟨BitVec.lt_def.mpr (Nat.lt_of_lt_of_le (BitVec.lt_def.mp hlt) hle),
    fun hpow => absurd ⟨3, rfl⟩ hpow⟩

/-- What has been asked for is larger than the alignment if the double does not wrap. -/
theorem lt_enlarge_iff (junk : Char) (v : BitVec 32) (dst : Dest) :
    v < (enlarge junk v dst).max ↔ v.toNat < 2 ^ 31 ∨ v < dst.max := by
  have hv := v.isLt
  have hdouble : (v * 2 + 1).toNat = (v.toNat * 2 + 1) % 2 ^ 32 := by
    rw [BitVec.toNat_add, BitVec.toNat_mul]
    show (v.toNat * 2 % 2 ^ 32 + 1) % 2 ^ 32 = _
    omega
  unfold enlarge
  split
  · next h =>
    rw [BitVec.lt_def, hdouble] at h
    rw [BitVec.lt_def, BitVec.lt_def]
    dsimp only
    rw [hdouble]
    omega
  · next h =>
    rw [BitVec.lt_def, hdouble] at h
    rw [BitVec.lt_def]
    omega

theorem toNat_enlarge (junk : Char) (v : BitVec 32) (dst : Dest) :
    (enlarge junk v dst).max.toNat = max dst.max.toNat (v * 2 + 1).toNat := by
  unfold enlarge
  split
  · next h => exact (Nat.max_eq_right (Nat.le_of_lt (BitVec.lt_def.mp h))).symm
  · next h => exact (Nat.max_eq_left (Nat.le_of_not_lt fun hlt => h (BitVec.lt_def.mpr hlt))).symm

/-- A segment that is added. -/
theorem indexed_append {pwr2 : BitVec 32 → Bool} {s t : State} {m : Option Gdb.Memory}
    {argv4 : Option (BitVec 32)} {r : Except Unit Bool} (hsized : Sized s)
    (hold : ∀ e ∈ s.memLst, Ample s.asciib.max e.2)
    (h : exec (append junk pwr2 m argv4) s = some (r, t)) :
    (Indexed t ↔ Fitting pwr2 s (.edit (.add m argv4))) ∧
      (Fitting pwr2 s (.edit (.add m argv4)) → ∀ e ∈ t.memLst, Ample t.asciib.max e.2) := by
  cases m with
  | none =>
      cases h
      exact ⟨iff_of_true (Ample.indexed hold) trivial, fun _ => hold⟩
  | some m =>
      cases h
      -- the segment is unfolded, so that it counts at once
      have hall : ∀ dst : Dest, s.asciib.max ≤ dst.max →
          let mem : Segment := ⟨m.begin, m.length, alignmentOf pwr2 argv4, true⟩
          let u : State := { s with memLst := s.memLst ++ [(s.next, mem)], asciib := dst }
          (Indexed u ↔ Ample dst.max mem) ∧ (Ample dst.max mem → ∀ e ∈ u.memLst, Ample u.asciib.max e.2) := by
        intro dst hmax mem u
        have hample : Ample dst.max mem → ∀ e ∈ u.memLst, Ample u.asciib.max e.2 := by
          intro hmem e he
          rcases List.mem_append.mp he with he | he
          · exact (hold e he).mono hmax
          · obtain rfl := List.mem_singleton.mp he
            exact hmem
        refine ⟨⟨fun hindexed => ?_, fun hmem => Ample.indexed (hample hmem)⟩, hample⟩
        have hnew := hindexed (s.next, mem) (List.mem_append_right _ List.mem_cons_self)
        exact ⟨hnew.1, hnew.2 rfl⟩
      cases argv4 with
      | none =>
          have hdefault := @ample_default m.begin m.length _ hsized.default
          exact ⟨iff_of_true ((hall _ (BitVec.le_refl _)).1.mpr hdefault) trivial,
            fun _ => (hall _ (BitVec.le_refl _)).2 hdefault⟩
      | some v =>
          have hmax := (le_enlarge junk (alignmentOf pwr2 (some v)) s.asciib).1
          have hfitting : Ample (enlarge junk (alignmentOf pwr2 (some v)) s.asciib).max
              ⟨m.begin, m.length, alignmentOf pwr2 (some v), true⟩ ↔
                Fitting pwr2 s (.edit (.add (some m) (some v))) := by
            unfold Fitting alignmentOf
            dsimp only
            cases pwr2 v with
            | true =>
                rw [if_pos rfl, ample_iff, lt_enlarge_iff, toNat_enlarge, forall_prop_of_true rfl]
            | false =>
                refine iff_of_true (ample_default ?_) nofun
                exact BitVec.le_trans hsized.default (le_enlarge junk _ _).1
          exact ⟨(hall _ hmax).1.trans hfitting, fun h => (hall _ hmax).2 (hfitting.mpr h)⟩

/-- What the other steps leave of the segments. -/
theorem ample_kept {pwr2 : BitVec 32 → Bool} {s t : State} {ev : Event}
    (hold : ∀ e ∈ s.memLst, Ample s.asciib.max e.2) (h : Step junk pwr2 s ev t) :
    (∃ m argv4, ev = .edit (.add m argv4)) ∨
      Fitting pwr2 s ev ∧ ∀ e ∈ t.memLst, Ample t.asciib.max e.2 := by
  have hedit : ∀ {argv2 : CStr} {f : Nat → List (Nat × Segment) → List (Nat × Segment)}
      {r : Except Unit Bool}, (∀ a mems, ∀ e ∈ f a mems, ∃ e' ∈ mems, ∃ b, e.2 = { e'.2 with expanded := b }) →
      exec (editAt argv2 f) s = some (r, t) → ∀ e ∈ t.memLst, Ample t.asciib.max e.2 := by
    intro argv2 f r hf hexec
    rw [exec_editAt] at hexec
    split at hexec
    · cases hexec
      exact hold
    · split at hexec
      · cases hexec
      · cases hexec
        intro e he
        obtain ⟨e', he', b, heq⟩ := hf _ _ e he
        rw [heq]
        exact hold e' he'
  cases ev with
  | edit e =>
      obtain ⟨r, hexec⟩ := h
      cases e with
      | add m argv4 => exact Or.inl ⟨m, argv4, rfl⟩
      | delete argv2 =>
          refine Or.inr ⟨trivial, hedit (fun a mems e he => ?_) hexec⟩
          exact ⟨e, List.mem_of_mem_filter he, e.2.expanded, rfl⟩
      | fold argv2 =>
          refine Or.inr ⟨trivial, hedit (fun a mems e he => ?_) hexec⟩
          obtain ⟨e', he', rfl⟩ := List.mem_map.mp he
          refine ⟨e', he', ?_⟩
          unfold toggle
          dsimp only
          split
          · exact ⟨_, rfl⟩
          · exact ⟨e'.2.expanded, rfl⟩
      | view =>
          cases hexec
          exact Or.inr ⟨trivial, hold⟩
  | update window replies =>
      obtain ⟨r, hexec⟩ := h
      refine Or.inr ⟨trivial, ?_⟩
      unfold updateText at hexec
      cases window with
      | false =>
          cases hexec
          exact hold
      | true =>
          rw [if_pos rfl, exec_get_bind] at hexec
          cases hshow : showSegments junk replies 0 s.memLst s.contents { asciib := s.asciib } with
          | none =>
              rw [hshow] at hexec
              cases hexec
          | some shown =>
              obtain ⟨contents, sheet, ok⟩ := shown
              rw [hshow] at hexec
              have hmax := (extends_showSegments hshow).max
              cases ok <;> cases hexec <;> exact fun e he => (hold e he).mono hmax

/-- In a run the buffer is always larger than all alignments, and all indices are inside, if and only if
the double of no alignment wraps and the rows of alignments that are no powers of 2 are shorter than the buffer. -/
theorem run_indexed_iff (junk : Char) (pwr2 : BitVec 32 → Bool) (evs : List Event) (t : State) :
    Run (fun s ev t => Step junk pwr2 s ev t ∧ Indexed t) (init junk) evs t ↔
      Run (fun s ev t => Step junk pwr2 s ev t ∧ Fitting pwr2 s ev) (init junk) evs t := by
  refine Run.guarded_iff (I := fun s => Sized s ∧ ∀ e ∈ s.memLst, Ample s.asciib.max e.2)
    (g := fun _ _ u => Indexed u)
    ⟨sized_init junk, nofun⟩ ?_ ?_ evs t
  · rintro s ev u ⟨hsized, hold⟩ hev hfitting
    refine ⟨sized_step hsized hev, ?_⟩
    rcases ample_kept hold hev with ⟨m, argv4, rfl⟩ | ⟨-, hkept⟩
    · obtain ⟨r, hexec⟩ := hev
      exact (indexed_append hsized hold hexec).2 hfitting
    · exact hkept
  · rintro s ev u ⟨hsized, hold⟩ hev
    rcases ample_kept hold hev with ⟨m, argv4, rfl⟩ | ⟨hfitting, hkept⟩
    · obtain ⟨r, hexec⟩ := hev
      exact (indexed_append hsized hold hexec).1
    · exact iff_of_true (Ample.indexed hkept) hfitting

/-- The double of 2 ^ 31 wraps to 0, and the buffer stays as small as it is. -/
theorem double_wraps : ∃ t, Run (Step ' ' fun v => v &&& (v - 1) == 0) (init ' ')
    [.edit (.add (some { begin := some "0x1000".toList, content := some "00".toList, length := 1 })
      (some 0x80000000))] t ∧ ¬ Indexed t := by
  refine ⟨_, Run.nil.snoc ⟨_, rfl⟩, fun h => ?_⟩
  exact absurd (h _ List.mem_cons_self).1 (by decide)

end View

end Vimgdb.Memory
