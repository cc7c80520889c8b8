import Vimgdb.User.PerRows

/-!
# The lines of the registers

`Per set` takes a line of the window and looks for the register in the line map.

* `Sheet.OnRow`: a line of the text is on a row of a register, or of its bits.
* `Sheet.Entered`: the entries of the line map, and the rows of the text.
* `entered_showRanges`: each row is behind the entry of its register.
* `Meets`: `set` is for the register of the line, or it is rejected.
* `set_iff`: it is so if and only if the line is on such a row, or above all of them.
-/

namespace Vimgdb.Per.View

open MarkedText Printf Programs
open Gdb (MemoryObject)

/-! ## Rows -/

/-- The register whose value, or whose bits, a row shows. -/
def Row.value? : Row → Option RegisterPtr
  | .register p => some p
  | .bits p => some p.reg
  | _ => none

/-- Line `l` of the text is on a row of `p`, or on one of its bits. -/
def Sheet.OnRow (sheet : Sheet) (p : RegisterPtr) (l : Nat) : Prop :=
  ∃ pre piece post, sheet.obuf.pieces = pre ++ piece :: post ∧
    (piece.shows.bind Row.value?) = some p ∧
    ∃ i < piece.text.length, l = 1 + breaks '\n' pre + (piece.text.take i).count '\n'

/-- All characters are on one line. -/
def OneRow (t : CStr) : Prop := ∀ i < t.length, (t.take i).count '\n' = 0

/-- The names and the descriptions have no line breaks. -/
def Register.OneLine (reg : Register) : Prop :=
  '\n' ∉ reg.name.getD [] ∧ '\n' ∉ reg.desc.getD [] ∧ ∀ bits ∈ reg.bits, '\n' ∉ bits.name

def OneLine (ranges : List Range) : Prop := ∀ range ∈ ranges, ∀ sec ∈ range.sections,
  '\n' ∉ sec.name ∧ ∀ reg ∈ sec.regs, Register.OneLine reg

/-- A register of the list, with bytes. -/
def Known (all : List Range) (load : Nat) (p : RegisterPtr) : Prop :=
  p.sec.load = load ∧ ∃ reg, registerAt all p = some reg ∧ reg.nbytes ≠ 0

theorem oneRow_of_count {t : CStr} (h : t.count '\n' = 0) : OneRow t := fun i _ =>
  Nat.eq_zero_of_le_zero (h ▸ (List.take_sublist i t).count_le _)

theorem oneRow_append {t : CStr} (h : (t ++ "\n".toList).count '\n' = 1) :
    OneRow (t ++ "\n".toList) := by
  intro i hi
  have hzero : t.count '\n' = 0 := by
    rw [List.count_append] at h
    exact Nat.succ.inj h
  have hle : i ≤ t.length := by
    rw [List.length_append] at hi
    exact Nat.lt_succ_iff.mp hi
  rw [List.take_append_of_le_length hle]
  exact Nat.eq_zero_of_le_zero (hzero ▸ (List.take_sublist i t).count_le _)

/-! ## Entries -/

/-- The entries of the line map are in front of the next line, which is counted as `k`, and all but
those behind line `b`.  Each row of a register is behind its entry.  Where the names have no line
breaks (`flat`) lines are counted as they are, and no other entry is between a row and its entry. -/
structure Sheet.Entered (flat : Prop) (all : List Range) (load b k : Nat)
    (es : List (Nat × RegisterPtr)) (sheet : Sheet) : Prop where
  line : sheet.line = BitVec.ofNat 32 k
  regs : sheet.regs = LineMap.ofMarks es
  ascending : Ascending b es
  le : k ≤ sheet.obuf.nextLine
  exact : flat → k = sheet.obuf.nextLine
  rows : ∀ a row p, (a, row) ∈ sheet.obuf.marks → row.value? = some p → Known all load p ∧
    ∃ c, (c, p) ∈ es ∧ c ≤ a ∧ (flat → ∀ e ∈ es, e.1 ≤ a → e.1 ≤ c)
  oneRow : flat → ∀ piece ∈ sheet.obuf.pieces, (piece.shows.bind Row.value?).isSome →
    OneRow piece.text

/-- What is shown is above the next line. -/
def Sheet.Settled (sheet : Sheet) : Prop := ∀ e ∈ sheet.obuf.marks, e.1 < sheet.obuf.nextLine

/-- The register that has been entered last. -/
def Current (all : List Range) (load k : Nat) (es : List (Nat × RegisterPtr)) (p : RegisterPtr) :
    Prop :=
  Known all load p ∧ ∃ c, (c, p) ∈ es ∧ c ≤ k ∧ ∀ e ∈ es, e.1 ≤ c

variable {flat : Prop} {all : List Range} {load b k n : Nat} {es : List (Nat × RegisterPtr)}
  {sheet sheet' : Sheet} {p : RegisterPtr} {shows : Option Row} {fmt : String} {args : List Arg}

theorem Sheet.obuf_of_add (h : sheet.add shows fmt args = some sheet') :
    sheet.obuf.add shows fmt.toList args = some sheet'.obuf := by
  obtain ⟨obuf, hadd, rfl⟩ := Option.map_eq_some_iff.mp h
  exact hadd

/-- A text that is added, with the lines that it ends. -/
theorem marks_of_add (h : sheet.add shows fmt args = some sheet') : ∃ t,
    vsnprintf fmt.toList args = some t ∧ sheet'.obuf.pieces = sheet.obuf.pieces ++ [⟨t, shows⟩] ∧
    sheet'.obuf.marks = sheet.obuf.marks ++ shows.toList.map (fun m => (sheet.obuf.nextLine, m)) ∧
    sheet'.obuf.nextLine = sheet.obuf.nextLine + t.count '\n' := by
  obtain ⟨t, ht, hpieces⟩ := Dynarray.pieces_of_add (Sheet.obuf_of_add h)
  refine ⟨t, ht, hpieces, ?_, ?_⟩
  · unfold Dynarray.marks Dynarray.nextLine
    rw [hpieces, marks_append, marks_singleton]
  · unfold Dynarray.nextLine
    rw [hpieces, breaks_append, breaks_cons, breaks_nil]
    exact (Nat.add_assoc _ _ _).symm

/-- Behind a line break all that is shown is above. -/
theorem settled_of_add (h : sheet.add shows fmt args = some sheet')
    (hbreak : 0 < (scanned fmt.toList).count '\n') : sheet'.Settled := by
  obtain ⟨t, ht, -, hmarks, hnext⟩ := marks_of_add h
  have hle := le_count_vsnprintf ht
  intro e he
  rw [hmarks] at he
  rw [hnext]
  rcases List.mem_append.mp he with he | he
  · have hline : e.1 ≤ 1 + breaks '\n' sheet.obuf.pieces := marks_line_le he
    unfold Dynarray.nextLine
    omega
  · obtain ⟨m, -, rfl⟩ := List.mem_map.mp he
    exact Nat.lt_add_of_pos_right (Nat.lt_of_lt_of_le hbreak hle)

/-- A text that is added is for the register that has been entered last. -/
theorem Sheet.Entered.add (h : sheet.Entered flat all load b k es)
    (hadd : sheet.add shows fmt args = some sheet') (hargs : flat → ∀ a ∈ args, a.OneLine)
    (hn : (scanned fmt.toList).count '\n' = n)
    (hshows : ∀ row ∈ shows, ∀ p, row.value? = some p → Current all load k es p ∧
      (flat → ∀ t, vsnprintf fmt.toList args = some t → OneRow t)) :
    (sheet'.skip (BitVec.ofNat 32 n)).Entered flat all load b (k + n) es := by
  obtain ⟨t, ht, hpieces, hmarks, hnext⟩ := marks_of_add hadd
  have hsame := Sheet.toShown_add hadd
  have hline : sheet'.line = sheet.line := congrArg Shown.line hsame
  have hregs : sheet'.regs = sheet.regs := congrArg Shown.regs hsame
  have hle := le_count_vsnprintf ht
  constructor
  · show sheet'.line + BitVec.ofNat 32 n = _
    rw [hline, h.line, BitVec.ofNat_add]
  · exact hregs.trans h.regs
  · exact h.ascending
  · show k + n ≤ sheet'.obuf.nextLine
    have := h.le
    omega
  · intro hflat
    show k + n = sheet'.obuf.nextLine
    have hcount := count_vsnprintf (hargs hflat) ht
    have := h.exact hflat
    omega
  · intro a row p hmem hrow
    have hmem' : (a, row) ∈ sheet'.obuf.marks := hmem
    rw [hmarks] at hmem'
    rcases List.mem_append.mp hmem' with hold | hnew
    · exact h.rows a row p hold hrow
    · obtain ⟨m, hm, heq⟩ := List.mem_map.mp hnew
      obtain ⟨rfl, rfl⟩ := Prod.mk.inj heq
      obtain ⟨⟨hknown, c, hc, hck, hlast⟩, -⟩ := hshows m (Option.mem_toList.mp hm) p hrow
      exact ⟨hknown, c, hc, Nat.le_trans hck h.le, fun _ e he _ => hlast e he⟩
  · intro hflat piece hpiece hsome
    have hpiece' : piece ∈ sheet'.obuf.pieces := hpiece
    rw [hpieces] at hpiece'
    rcases List.mem_append.mp hpiece' with hold | hnew
    · exact h.oneRow hflat piece hold hsome
    · obtain rfl := List.mem_singleton.mp hnew
      obtain ⟨p, hp⟩ := Option.isSome_iff_exists.mp hsome
      obtain ⟨row, hrow, hp⟩ := Option.bind_eq_some_iff.mp hp
      exact (hshows row hrow p hp).2 hflat t ht

theorem Sheet.skip_zero (sheet : Sheet) : sheet.skip (BitVec.ofNat 32 0) = sheet := by
  unfold Sheet.skip
  rw [BitVec.add_zero]

theorem Sheet.Entered.mono {b' : Nat} (h : sheet.Entered flat all load b k es) (hle : b ≤ b') :
    sheet.Entered flat all load b' k es := { h with ascending := h.ascending.mono hle }

/-- A register is entered on a line of its own. -/
theorem Sheet.Entered.addReg (h : sheet.Entered flat all load k k es) (hsettled : sheet.Settled)
    (p : RegisterPtr) : (sheet.addReg p).Entered flat all load (k + 1) k (es ++ [(k, p)]) where
  line := h.line
  regs := by
    rw [LineMap.ofMarks_snoc, ← h.regs, ← h.line]
    rfl
  ascending := h.ascending.snoc (Nat.le_refl k) (Nat.lt_succ_self k) p
  le := h.le
  exact := h.exact
  rows a row q hmem hrow := by
    obtain ⟨hknown, c, hc, hca, hlast⟩ := h.rows a row q hmem hrow
    refine ⟨hknown, c, List.mem_append_left _ hc, hca, fun hflat e he hea => ?_⟩
    rcases List.mem_append.mp he with he | he
    · exact hlast hflat e he hea
    · obtain rfl := List.mem_singleton.mp he
      have hlt := hsettled _ hmem
      have hk := h.exact hflat
      dsimp only at hea hlt
      omega
  oneRow := h.oneRow

theorem current_snoc (h : Ascending k es) (hknown : Known all load p) :
    Current all load k (es ++ [(k, p)]) p := by
  refine ⟨hknown, k, List.mem_append_right _ List.mem_cons_self, Nat.le_refl k, fun e he => ?_⟩
  rcases List.mem_append.mp he with he | he
  · exact Nat.le_of_lt (h.2 e he)
  · obtain rfl := List.mem_singleton.mp he
    exact Nat.le_refl k

theorem Current.mono {k' : Nat} (h : Current all load k es p) (hle : k ≤ k') :
    Current all load k' es p := by
  obtain ⟨hknown, c, hc, hck, hlast⟩ := h
  exact ⟨hknown, c, hc, Nat.le_trans hck hle, hlast⟩

/-! ## Texts without line breaks -/

theorem newline_notMem_dash (desc : Option CStr) : '\n' ∉ dash desc := by
  unfold dash
  split <;> decide

theorem newline_notMem_orNull {name : Option CStr} (h : '\n' ∉ name.getD []) :
    '\n' ∉ orNull name := by
  cases name with
  | none => decide
  | some name => exact h

theorem mem_reversed {c : Char} {s : CStr} (h : c ∈ Strswap.reversed s) : c ∈ s := by
  fun_induction Strswap.groups s with
  | case1 a b s ih =>
      rw [Strswap.reversed_cons] at h
      rcases List.mem_append.mp h with h | h
      · exact List.mem_cons_of_mem _ (List.mem_cons_of_mem _ (ih h))
      · simp only [List.mem_cons, List.not_mem_nil, or_false] at h ⊢
        tauto
  | case2 a => exact h
  | case3 => exact h

theorem mem_of_swapAt {c : Char} {s s' : CStr} {start : Nat} {len : BitVec 32}
    (h : swapAt s start len = some s') (hc : c ∈ s') : c ∈ s := by
  unfold swapAt at h
  split_ifs at h with hle
  obtain ⟨t, ht, rfl⟩ := Option.map_eq_some_iff.mp h
  have hlength : ((s.drop start).take len.toNat).length = len.toNat := by
    rw [List.length_take, List.length_drop]
    omega
  rw [Strswap.strswap2_eq _ hlength] at ht
  rcases List.mem_append.mp hc with hc | hc
  · rcases List.mem_append.mp hc with hc | hc
    · exact List.mem_of_mem_take hc
    · split_ifs at ht
      rw [← Option.some_inj.mp ht] at hc
      exact List.mem_of_mem_drop (List.mem_of_mem_take (mem_reversed hc))
  · exact List.mem_of_mem_drop hc

theorem mem_of_swapBytes {c : Char} {endian : Endian} {reg : Register} {s s' : CStr}
    (h : swapBytes endian reg s = some s') (hc : c ∈ s') : c ∈ s := by
  unfold swapBytes at h
  split_ifs at h
  · exact mem_of_swapAt h hc
  · cases h
    exact hc

theorem mem_of_write {c d : Char} {s s' : CStr} {i : Nat} (h : Buffers.write s i d = some s')
    (hc : c ∈ s') : c ∈ s ∨ c = d := by
  unfold Buffers.write at h
  split at h
  · cases h
    exact List.mem_or_eq_of_mem_set hc
  · cases h

theorem mem_of_regVal {c : Char} {s s' : CStr} {start stop : Nat} {val : BitVec 64}
    (h : regVal s start stop = some (val, s')) (hc : c ∈ s') : c ∈ s ∨ c = '\x00' := by
  unfold regVal at h
  simp only [Option.bind_eq_bind, Option.bind_eq_some_iff] at h
  obtain ⟨d, hd, s₁, hzero, digits, -, s₂, hback, heq⟩ := h
  cases heq
  rcases mem_of_write hback hc with hc | rfl
  · exact mem_of_write hzero hc
  · exact Or.inl (List.mem_of_getElem? hd)

/-! ## The loops -/

variable {sh : Shifts} {endian : Endian} {reg : Register} {old s s' : CStr}

/-- Behind four bits a line ends. -/
theorem entered_breakLine {i : Nat} (h : sheet.Entered flat all load b k es)
    (hbreak : breakLine i sheet = some sheet') :
    ∃ k', k ≤ k' ∧ sheet'.Entered flat all load b k' es := by
  unfold breakLine at hbreak
  split at hbreak
  · obtain ⟨sheet₁, hadd, rfl⟩ := Option.map_eq_some_iff.mp hbreak
    exact ⟨k + 1, Nat.le_succ k, h.add hadd (fun _ => nofun) (by decide) (fun row hrow => by cases hrow)⟩
  · cases hbreak
    exact ⟨k, Nat.le_refl k, h⟩

theorem entered_showBits {val : BitVec 64} {i : Nat} {bits : List Bits}
    (h : sheet.Entered flat all load b k es) (hcurrent : Current all load k es p)
    (hflat : flat → ∀ bs ∈ bits, '\n' ∉ bs.name)
    (hshow : showBits sh p val i bits sheet = some sheet') :
    ∃ k', k ≤ k' ∧ sheet'.Entered flat all load b k' es := by
  induction bits generalizing i k sheet with
  | nil =>
      cases hshow
      exact ⟨k, Nat.le_refl k, h⟩
  | cons bs bits ih =>
      unfold showBits at hshow
      simp only [Option.bind_eq_bind, Option.bind_eq_some_iff] at hshow
      obtain ⟨sheet₁, hbreak, sheet₂, hadd, hrest⟩ := hshow
      obtain ⟨k₁, hk₁, h₁⟩ := entered_breakLine h hbreak
      have h₁' : Sheet.Entered flat all load b k₁ es
          ⟨sheet₁.toShown, sheet₁.obuf, Function.update sheet₁.values ⟨p, i⟩ (sh.bitVal val bs)⟩ :=
        { h₁ with }
      have hargs : flat → ∀ a ∈ [Arg.str bs.name, .str (changed (sh.bitVal val bs ≠
          sheet₁.values ⟨p, i⟩)).1, .int ((bs.nbits + 3) / 4), .long (sh.bitVal val bs),
          .str (changed (sh.bitVal val bs ≠ sheet₁.values ⟨p, i⟩)).2], a.OneLine := by
        intro hf a ha
        have hchanged := newline_notMem_changed (sh.bitVal val bs ≠ sheet₁.values ⟨p, i⟩)
        simp only [List.mem_cons, List.not_mem_nil, or_false] at ha
        rcases ha with rfl | rfl | rfl | rfl | rfl
        · exact hflat hf bs List.mem_cons_self
        · exact hchanged.1
        · trivial
        · trivial
        · exact hchanged.2
      have h₂ := h₁'.add hadd hargs (n := 0) (by decide) fun row hrow q hq => by
        obtain rfl := Option.mem_some_iff.mp hrow
        cases hq
        exact ⟨hcurrent.mono hk₁, fun hf t ht => oneRow_of_count (count_vsnprintf (hargs hf) ht)⟩
      rw [Sheet.skip_zero] at h₂
      obtain ⟨k', hk', h'⟩ := ih h₂ (hcurrent.mono hk₁)
        (fun hf b hb => hflat hf b (List.mem_cons_of_mem _ hb)) hrest
      exact ⟨k', Nat.le_trans hk₁ hk', h'⟩

/-- The bits of a register: what has been shown stays above the next line. -/
theorem entered_showFields (h : sheet.Entered flat all load b k es) (hsettled : sheet.Settled)
    (hcurrent : Current all load k es p) (hflat : flat → ∀ bs ∈ reg.bits, '\n' ∉ bs.name)
    (hshow : showFields sh p reg s sheet = some (s', sheet')) :
    (∃ k', k ≤ k' ∧ sheet'.Entered flat all load b k' es) ∧ sheet'.Settled ∧
      ∀ c ∈ s', c ∈ s ∨ c = '\x00' := by
  unfold showFields at hshow
  split at hshow
  · cases hshow
    exact ⟨⟨k, Nat.le_refl k, h⟩, hsettled, fun c hc => Or.inl hc⟩
  · simp only [Option.bind_eq_bind, Option.bind_eq_some_iff] at hshow
    obtain ⟨⟨val, s₁⟩, hval, sheet₁, hbits, sheet₂, hadd, heq⟩ := hshow
    cases heq
    obtain ⟨k₁, hk₁, h₁⟩ := entered_showBits h hcurrent hflat hbits
    have h₂ := h₁.add hadd (fun _ => nofun) (n := 2) (by decide) fun row hrow => by cases hrow
    have hsettled' : sheet₂.Settled := settled_of_add hadd (by decide)
    exact ⟨⟨k₁ + 2, by omega, h₂⟩, hsettled', fun c hc => mem_of_regVal hval hc⟩

/-- Between two registers. -/
def Sheet.Ready (flat : Prop) (all : List Range) (load : Nat) (sheet : Sheet) : Prop :=
  (∃ k es, sheet.Entered flat all load k k es) ∧ sheet.Settled

/-- A text that ends lines and shows no register. -/
theorem Sheet.Ready.add (h : sheet.Ready flat all load) (hadd : sheet.add shows fmt args = some sheet')
    (hargs : flat → ∀ a ∈ args, a.OneLine) (hn : (scanned fmt.toList).count '\n' = n) (hpos : 0 < n)
    (hshows : ∀ row ∈ shows, row.value? = none) :
    (sheet'.skip (BitVec.ofNat 32 n)).Ready flat all load := by
  obtain ⟨⟨k, es, h⟩, -⟩ := h
  have h' := h.add hadd hargs hn fun row hrow p hp => by
    rw [hshows row hrow] at hp
    cases hp
  have hsettled : sheet'.Settled := settled_of_add hadd (hn ▸ hpos)
  exact ⟨⟨_, es, h'.mono (Nat.le_add_right k n)⟩, hsettled⟩

/-- A register, or a heading. -/
theorem ready_showRegister (h : sheet.Ready flat all load) (hp : reg.nbytes ≠ 0 → Known all load p)
    (hflat : flat → Register.OneLine reg ∧ '\n' ∉ s)
    (hshow : showRegister sh endian p reg old s sheet = some (s', sheet')) :
    sheet'.Ready flat all load ∧ ∀ c ∈ s', c ∈ s ∨ c = '\x00' := by
  obtain ⟨⟨k, es, h⟩, hsettled⟩ := h
  have hentered := h.addReg hsettled p
  unfold showRegister at hshow
  dsimp only at hshow
  split at hshow
  · obtain ⟨sheet₁, hheading, heq⟩ := Option.map_eq_some_iff.mp hshow
    cases heq
    obtain ⟨sheet₂, hadd, rfl⟩ := Option.map_eq_some_iff.mp hheading
    have hargs : flat → ∀ a ∈ [Arg.str (reg.name.getD []), .str (dash reg.desc),
        .str (reg.desc.getD [])], a.OneLine := by
      intro hf a ha
      simp only [List.mem_cons, List.not_mem_nil, or_false] at ha
      rcases ha with rfl | rfl | rfl
      · exact (hflat hf).1.1
      · exact newline_notMem_dash _
      · exact (hflat hf).1.2.1
    have h' := hentered.add hadd hargs (n := 1) (by decide) fun row hrow q hq => by
      obtain rfl := Option.mem_some_iff.mp hrow
      cases hq
    have hsettled' : sheet₂.Settled := settled_of_add hadd (by decide)
    exact ⟨⟨⟨k + 1, _, h'⟩, hsettled'⟩, fun c hc => Or.inl hc⟩
  · next hbytes =>
    have hknown := hp hbytes
    simp only [Option.bind_eq_bind, Option.bind_eq_some_iff] at hshow
    obtain ⟨modified, -, s₁, hswap, sheet₁, hvalue, ⟨s₂, sheet₂⟩, hfields, s₃, hback, heq⟩ := hshow
    cases heq
    unfold showValue at hvalue
    dsimp only at hvalue
    split at hvalue
    · obtain ⟨sheet₀, hadd, rfl⟩ := Option.map_eq_some_iff.mp hvalue
      have hargs : flat → ∀ a ∈ [Arg.str (orNull reg.name), .str (dash reg.desc),
          .str (reg.desc.getD []), .str (changed modified).1, .int (reg.nbytes * 2),
          .str (s₁.drop (reg.offset * 2).toNat), .str (changed modified).2], a.OneLine := by
        intro hf a ha
        have hchanged := newline_notMem_changed modified
        simp only [List.mem_cons, List.not_mem_nil, or_false] at ha
        rcases ha with rfl | rfl | rfl | rfl | rfl | rfl | rfl
        · exact newline_notMem_orNull (hflat hf).1.1
        · exact newline_notMem_dash _
        · exact (hflat hf).1.2.1
        · exact hchanged.1
        · trivial
        · exact fun hmem => (hflat hf).2 (mem_of_swapBytes hswap (List.mem_of_mem_drop hmem))
        · exact hchanged.2
      have hcurrent := current_snoc h.ascending hknown
      have h₁ := hentered.add hadd hargs (n := 1) (by decide) fun row hrow q hq => by
        obtain rfl := Option.mem_some_iff.mp hrow
        cases hq
        refine ⟨hcurrent, fun hf t ht => ?_⟩
        have hcount := count_vsnprintf (hargs hf) ht
        rw [vsnprintf_value] at ht
        obtain rfl := Option.some.inj ht
        exact oneRow_append hcount
      have hsettled₁ : sheet₀.Settled := settled_of_add hadd (by decide)
      obtain ⟨⟨k', hk', h₂⟩, hsettled₂, hmem⟩ := entered_showFields h₁ hsettled₁
        (hcurrent.mono (Nat.le_succ k)) (fun hf => (hflat hf).1.2.2) hfields
      refine ⟨⟨⟨k', _, h₂.mono hk'⟩, hsettled₂⟩, fun c hc => ?_⟩
      exact (hmem c (mem_of_swapBytes hback hc)).imp_left (mem_of_swapBytes hswap)
    · cases hvalue

theorem ready_showRegisters {q : SectionPtr} {sec : Section} (hload : q.load = load)
    (hsec : sectionAt all q = some sec) {regs : List Register} {k : Nat}
    (hregs : sec.regs.drop k = regs) (h : sheet.Ready flat all load)
    (hflat : flat → (∀ reg ∈ sec.regs, Register.OneLine reg) ∧ '\n' ∉ s)
    (hshow : showRegisters sh endian q old k regs s sheet = some (s', sheet')) :
    sheet'.Ready flat all load ∧ ∀ c ∈ s', c ∈ s ∨ c = '\x00' := by
  induction regs generalizing k s sheet with
  | nil =>
      cases hshow
      exact ⟨h, fun c hc => Or.inl hc⟩
  | cons reg regs ih =>
      obtain ⟨hreg, hrest⟩ := getElem?_of_drop hregs
      unfold showRegisters at hshow
      rw [Option.bind_eq_bind, Option.bind_eq_some_iff] at hshow
      obtain ⟨⟨s₁, sheet₁⟩, hfirst, hshow⟩ := hshow
      have hknown : reg.nbytes ≠ 0 → Known all load ⟨q, k⟩ := by
        intro hbytes
        refine ⟨hload, reg, ?_, hbytes⟩
        unfold registerAt
        rw [hsec]
        exact hreg
      obtain ⟨h₁, hmem₁⟩ := ready_showRegister h hknown
        (fun hf => ⟨(hflat hf).1 reg (List.mem_of_getElem? hreg), (hflat hf).2⟩) hfirst
      obtain ⟨h₂, hmem₂⟩ := ih hrest h₁ (fun hf => ⟨(hflat hf).1, fun hmem =>
        (hmem₁ _ hmem).elim (hflat hf).2 (by decide)⟩) hshow
      exact ⟨h₂, fun c hc => (hmem₂ c hc).elim (hmem₁ c) Or.inr⟩

theorem ready_showSection {q : SectionPtr} {sec : Section} (hload : q.load = load)
    (hsec : sectionAt all q = some sec) (h : sheet.Ready flat all load)
    (hflat : flat → ('\n' ∉ sec.name ∧ ∀ reg ∈ sec.regs, Register.OneLine reg) ∧ '\n' ∉ s)
    (hshow : showSection sh endian q sec old s sheet = some (s', sheet')) :
    sheet'.Ready flat all load ∧ ∀ c ∈ s', c ∈ s ∨ c = '\x00' := by
  unfold showSection at hshow
  simp only [Option.bind_eq_bind, Option.bind_eq_some_iff] at hshow
  obtain ⟨sheet₁, hheader, ⟨s₁, sheet₂⟩, hregs, sheet₃, hadd, heq⟩ := hshow
  cases heq
  obtain ⟨sheet₀, hname, rfl⟩ := Option.map_eq_some_iff.mp hheader
  have hargs : flat → ∀ a ∈ [Arg.chr (if sec.expanded then '-' else '+'), .str sec.name],
      a.OneLine := by
    intro hf a ha
    simp only [List.mem_cons, List.not_mem_nil, or_false] at ha
    rcases ha with rfl | rfl
    · show (if sec.expanded then '-' else '+') ≠ '\n'
      split <;> decide
    · exact (hflat hf).1.1
  obtain ⟨⟨k, es, h₁⟩, hsettled⟩ := h.add hname hargs (n := 1) (by decide) (by decide)
    fun row hrow => by
      obtain rfl := Option.mem_some_iff.mp hrow
      rfl
  -- the header is entered in the other map
  have h₁' : (sheet₀.addSec q).Ready flat all load := ⟨⟨k, es, { h₁ with }⟩, hsettled⟩
  have hshown : sheet₂.Ready flat all load ∧ ∀ c ∈ s₁, c ∈ s ∨ c = '\x00' := by
    split at hregs
    · exact ready_showRegisters hload hsec List.drop_zero h₁'
        (fun hf => ⟨(hflat hf).1.2, (hflat hf).2⟩) hregs
    · cases hregs
      exact ⟨h₁', fun c hc => Or.inl hc⟩
  exact ⟨hshown.1.add hadd (fun _ => nofun) (n := 1) (by decide) (by decide) (fun row hrow => by
    cases hrow), hshown.2⟩

theorem ready_showSections {i j : Nat} {range : Range} (hrange : all[i]? = some range)
    {secs : List Section} (hsecs : range.sections.drop j = secs) (h : sheet.Ready flat all load)
    (hflat : flat → (∀ sec ∈ range.sections, '\n' ∉ sec.name ∧
      ∀ reg ∈ sec.regs, Register.OneLine reg) ∧ '\n' ∉ s)
    (hshow : showSections sh endian load i old j secs s sheet = some (s', sheet')) :
    sheet'.Ready flat all load := by
  induction secs generalizing j s sheet with
  | nil =>
      cases hshow
      exact h
  | cons sec secs ih =>
      obtain ⟨hsec, hrest⟩ := getElem?_of_drop hsecs
      unfold showSections at hshow
      rw [Option.bind_eq_bind, Option.bind_eq_some_iff] at hshow
      obtain ⟨⟨s₁, sheet₁⟩, hfirst, hshow⟩ := hshow
      obtain ⟨h₁, hmem₁⟩ := ready_showSection rfl (sectionAt_eq hrange hsec) h
        (fun hf => ⟨(hflat hf).1 sec (List.mem_of_getElem? hsec), (hflat hf).2⟩) hfirst
      exact ih hrest h₁ (fun hf => ⟨(hflat hf).1, fun hmem =>
        (hmem₁ _ hmem).elim (hflat hf).2 (by decide)⟩) hshow

theorem ready_showRanges {replies : Nat → Option CStr} {i : Nat} {ranges : List Range}
    {mems mems' : List MemoryObject} {ok : Bool} (hdrop : all.drop i = ranges)
    (h : sheet.Ready flat all load)
    (hflat : flat → OneLine all ∧ ∀ i content, replies i = some content → '\n' ∉ content)
    (hshow : showRanges sh endian load replies i ranges mems sheet = some (mems', sheet', ok)) :
    sheet'.Ready flat all load := by
  induction ranges generalizing i mems mems' sheet with
  | nil =>
      cases hshow
      exact h
  | cons range ranges ih =>
      obtain ⟨hrange, hrest⟩ := getElem?_of_drop hdrop
      cases mems with
      | nil => cases hshow
      | cons mem mems =>
          unfold showRanges at hshow
          cases hreply : replies i with
          | none =>
              rw [hreply] at hshow
              cases hshow
              exact h
          | some content =>
              rw [hreply] at hshow
              simp only [Option.bind_eq_bind, Option.bind_eq_some_iff] at hshow
              obtain ⟨⟨s₁, sheet₁⟩, hsecs, content', -, ⟨mems₁, sheet₂, ok'⟩, hshow, heq⟩ := hshow
              cases heq
              refine ih hrest (ready_showSections hrange List.drop_zero h (fun hf => ?_) hsecs) hshow
              obtain ⟨hnames, hcontents⟩ := hflat hf
              refine ⟨hnames range (List.mem_of_getElem? hrange), fun hmem => ?_⟩
              rcases List.mem_append.mp hmem with hmem | hmem
              · exact hcontents i content hreply hmem
              · exact absurd (List.mem_singleton.mp hmem) (by decide)

/-! ## Setting a register -/

/-- `set` is rejected, or it is for a register with a range, on a row of which the line is. -/
def Meets (t : Per.State) (sheet : Sheet) (argv2 : CStr) : Prop :=
  exec (target argv2) t = some (.ok false, t) ∨ exec (target argv2) t = some (.ok true, t) ∧
    ∃ p, t.lineRegs.find (atoi argv2) = some p ∧ sheet.OnRow p (atoi argv2).toNat

/-- No register and no heading is entered at a line or above it. -/
def AboveAll (t : Per.State) (l : BitVec 32) : Prop := ∀ e ∈ t.lineRegs, ¬ e.1 ≤ l

/-- The line is on a row of a register, and what else is entered at the line or above it is not below
the entry of the register. -/
def OnNearest (t : Per.State) (sheet : Sheet) (l : BitVec 32) : Prop := ∃ p c, sheet.OnRow p l.toNat ∧
  (c, p) ∈ t.lineRegs ∧ c ≤ l ∧ ∀ e ∈ t.lineRegs, e.1 ≤ l → e.1 ≤ c

/-- A row begins at the line or above it, and on the line where the names have no line breaks. -/
theorem Sheet.Entered.mem_marks (h : sheet.Entered flat all load b k es) {l : Nat}
    (hrow : sheet.OnRow p l) : ∃ a row, (a, row) ∈ sheet.obuf.marks ∧ row.value? = some p ∧ a ≤ l ∧
      (flat → a = l) := by
  obtain ⟨pre, piece, post, hpieces, hvalue, i, hi, rfl⟩ := hrow
  obtain ⟨row, hshows, hrow⟩ := Option.bind_eq_some_iff.mp hvalue
  refine ⟨1 + breaks '\n' pre, row, ?_, hrow, Nat.le_add_right _ _, fun hflat => ?_⟩
  · exact Dynarray.mem_marks.mpr ⟨pre, piece, post, hpieces, hshows, rfl⟩
  · have hmem : piece ∈ sheet.obuf.pieces := hpieces ▸ List.mem_append_right _ List.mem_cons_self
    rw [h.oneRow hflat piece hmem (hvalue ▸ rfl) i hi, Nat.add_zero]

theorem ofNat_le {c : Nat} {l : BitVec 32} (h : c ≤ l.toNat) : BitVec.ofNat 32 c ≤ l := by
  rw [BitVec.le_def, BitVec.toNat_ofNat]
  exact Nat.le_trans (Nat.mod_le _ _) h

variable {replies : Nat → Option CStr} {st : State} {t : State} {l : BitVec 32}

/-- The line map behind an update: each row is behind the entry of its register. -/
theorem entered_updateText (flat : Prop)
    (hflat : flat → OneLine st.rangeLst ∧ ∀ i content, replies i = some content → '\n' ∉ content)
    (h : exec (updateText sh true replies) st = some (.ok (some sheet), t)) :
    (∃ k es, sheet.Entered flat st.rangeLst st.load k k es) ∧ t.lineRegs = sheet.regs ∧
      t.rangeLst = st.rangeLst ∧ t.load = st.load := by
  have hstart : ∀ values, Sheet.Ready flat st.rangeLst st.load { values } := by
    intro values
    refine ⟨⟨1, [], ⟨rfl, rfl, ascending_nil 1, Nat.le_refl 1, fun _ => rfl, ?_, ?_⟩⟩, nofun⟩
    · exact fun a row p hmem _ => absurd hmem List.not_mem_nil
    · exact fun _ piece hmem _ => absurd hmem List.not_mem_nil
  unfold updateText at h
  rw [if_pos rfl, exec_get_bind] at h
  cases hshow : showRanges sh st.props.endian st.load replies 0 st.rangeLst st.mems
      { values := st.values } with
  | none =>
      rw [hshow] at h
      cases h
  | some shown =>
      obtain ⟨mems, sheet', ok⟩ := shown
      rw [hshow] at h
      cases ok <;> cases h
      exact ⟨(ready_showRanges List.drop_zero (hstart _) hflat hshow).1, rfl, rfl, rfl⟩

/-- The register that has been found is set. -/
theorem exec_target {u : Per.State} {argv2 : CStr} (hfind : u.lineRegs.find (atoi argv2) = some p)
    (hknown : Known u.rangeLst u.load p) : exec (target argv2) u = some (.ok true, u) := by
  obtain ⟨hload, reg, hreg, hbytes⟩ := hknown
  have hat : u.register p = some reg := by
    unfold Per.State.register
    rw [if_pos hload, hreg]
  unfold target
  rw [exec_get_bind]
  rw [hfind]
  dsimp only
  rw [hat]
  dsimp only
  rw [if_neg hbytes]
  rfl

theorem exec_target_none {u : Per.State} {argv2 : CStr} (hfind : u.lineRegs.find (atoi argv2) = none) :
    exec (target argv2) u = some (.ok false, u) := by
  unfold target
  rw [exec_get_bind]
  rw [hfind]
  rfl

/-- `set` is for the register of the line, or it is rejected, if and only if the line is on a row of the
register that is entered nearest, or above all of them. -/
theorem nearest_meets_iff (h : exec (updateText sh true replies) st = some (.ok (some sheet), t))
    (argv2 : CStr) : Meets t.toState sheet argv2 ↔
      AboveAll t.toState (atoi argv2) ∨ OnNearest t.toState sheet (atoi argv2) := by
  obtain ⟨⟨k, es, hentered⟩, hregs, hranges, hload⟩ :=
    entered_updateText False (fun hf => hf.elim) h
  have hk : k ≤ 2 ^ 32 := Nat.le_of_lt (Nat.lt_of_le_of_lt hentered.le sheet.obuf.nextLine_lt)
  have hpairwise : t.lineRegs.Pairwise fun d e => d.1 < e.1 := by
    rw [hregs, hentered.regs]
    exact LineMap.pairwise_ofMarks hk hentered.ascending
  have hfind := LineMap.find_eq_some_iff hpairwise (atoi argv2)
  constructor
  · rintro (hrejected | ⟨-, p, hp, hrow⟩)
    · left
      cases hnone : t.lineRegs.find (atoi argv2) with
      | none => exact LineMap.find_eq_none_iff.mp hnone
      | some p =>
          -- what is found is set, or there is nothing to read from
          exfalso
          unfold target at hrejected
          rw [exec_get_bind] at hrejected
          rw [hnone] at hrejected
          dsimp only at hrejected
          split at hrejected
          · cases hrejected
          · split at hrejected <;> cases hrejected
    · right
      obtain ⟨c, hc, hle, hlast⟩ := (hfind p).mp hp
      exact ⟨p, c, hrow, hc, hle, hlast⟩
  · rintro (habove | ⟨p, c, hrow, hc, hle, hlast⟩)
    · exact Or.inl (exec_target_none (LineMap.find_eq_none_iff.mpr habove))
    · have hp := (hfind p).mpr ⟨c, hc, hle, hlast⟩
      obtain ⟨a, row, hmem, hvalue, -, -⟩ := hentered.mem_marks hrow
      have hknown := (hentered.rows a row p hmem hvalue).1
      rw [← hranges, ← hload] at hknown
      exact Or.inr ⟨exec_target hp hknown, p, hp, hrow⟩

/-- Without line breaks in names and contents, nothing is entered between a row and its register. -/
theorem onNearest_iff (h : exec (updateText sh true replies) st = some (.ok (some sheet), t))
    (hnames : OneLine st.rangeLst) (hcontents : ∀ i content, replies i = some content → '\n' ∉ content)
    (l : BitVec 32) : OnNearest t.toState sheet l ↔ ∃ p, sheet.OnRow p l.toNat := by
  constructor
  · rintro ⟨p, c, hrow, -⟩
    exact ⟨p, hrow⟩
  · rintro ⟨p, hrow⟩
    obtain ⟨⟨k, es, hentered⟩, hregs, -, -⟩ :=
      entered_updateText True (fun _ => ⟨hnames, hcontents⟩) h
    have hk : k < 2 ^ 32 := Nat.lt_of_le_of_lt hentered.le sheet.obuf.nextLine_lt
    obtain ⟨a, row, hmem, hvalue, -, hline⟩ := hentered.mem_marks hrow
    obtain rfl := hline trivial
    obtain ⟨-, c, hc, hle, hlast⟩ := hentered.rows _ row p hmem hvalue
    refine ⟨p, BitVec.ofNat 32 c, hrow, ?_, ofNat_le hle, fun e he hel => ?_⟩
    · show _ ∈ t.lineRegs
      rw [hregs, hentered.regs]
      exact List.mem_map_of_mem (f := fun e : Nat × RegisterPtr => (BitVec.ofNat 32 e.1, e.2)) hc
    · have he' : e ∈ t.lineRegs := he
      rw [hregs, hentered.regs] at he'
      obtain ⟨d, hd, rfl⟩ := List.mem_map.mp he'
      have hdk := hentered.ascending.2 d hd
      have hck := hentered.ascending.2 _ hc
      have hdl : d.1 ≤ l.toNat := by
        rw [BitVec.le_def, BitVec.toNat_ofNat, Nat.mod_eq_of_lt (by omega)] at hel
        exact hel
      exact (LineMap.ofNat_le_iff (by omega) (by dsimp only at hck; omega)).mpr (hlast trivial d hd hdl)

/-- `set` is for the register of the line, or it is rejected, if and only if the line is on a row of the
register that is entered nearest, or above all of them.  Without line breaks in names and contents, the
register that is entered nearest is that of the row. -/
theorem set_meets_iff (h : exec (updateText sh true replies) st = some (.ok (some sheet), t))
    (argv2 : CStr) : (Meets t.toState sheet argv2 ↔
      AboveAll t.toState (atoi argv2) ∨ OnNearest t.toState sheet (atoi argv2)) ∧
    (OneLine st.rangeLst → (∀ i content, replies i = some content → '\n' ∉ content) →
      (Meets t.toState sheet argv2 ↔
        AboveAll t.toState (atoi argv2) ∨ ∃ p, sheet.OnRow p (atoi argv2).toNat)) := by
  refine ⟨nearest_meets_iff h argv2, fun hnames hcontents => ?_⟩
  rw [nearest_meets_iff h argv2, onNearest_iff h hnames hcontents]

/-- A heading and a register, and behind them a section that is folded. -/
private def headed : State :=
  { rangeLst := [{ base := 0x40000000, size := 4, mem := some [], sections := [
      { name := "A".toList, expanded := true, regs := [⟨some "H".toList, none, 0, 0, {}, []⟩,
        ⟨some "R".toList, none, 0, 4, {}, []⟩] },
      { name := "B".toList, expanded := false, regs := [] }] }]
    mems := [{ begin := none, content := some "00000000".toList, length := 4 }] }

private def headedReply : Nat → Option CStr := fun _ => some "0a0b0c0d".toList

private theorem exists_headed : ∃ sheet : Sheet,
    exec (updateText ⟨fun _ _ => 0, fun _ _ => 0⟩ true headedReply) headed =
      some (.ok (some sheet), headed.updated ⟨fun _ _ => 0, fun _ _ => 0⟩ headedReply) ∧
    sheet.obuf.pieces = (viewPieces ⟨fun _ _ => 0, fun _ _ => 0⟩ headedReply headed).pieces := by
  refine exists_sheet (.cons ⟨?_, _, rfl, isDump_of_pairs (by decide) ⟨by decide, by decide, by decide⟩⟩ .nil) ?_
    (by decide +kernel)
  · unfold Range.All Register.Lies
    decide
  · intro i range hrange
    obtain rfl := List.mem_singleton.mp (List.mem_of_getElem? hrange)
    exact ⟨_, rfl, isDump_of_pairs (by decide) ⟨by decide, by decide, by decide⟩⟩

/-- The row of the register is on line 3. -/
theorem row_meets : ∃ sheet t, exec (updateText ⟨fun _ _ => 0, fun _ _ => 0⟩ true headedReply) headed =
    some (.ok (some sheet), t) ∧ Meets t.toState sheet "3".toList := by
  obtain ⟨sheet, hsheet, hpieces⟩ := exists_headed
  have hmem : (3, Row.register ⟨⟨0, 0, 0⟩, 1⟩) ∈ sheet.obuf.marks := by
    unfold Dynarray.marks
    rw [hpieces]
    decide +kernel
  obtain ⟨pre, piece, post, hsplit, hshows, hline⟩ := Dynarray.mem_marks.mp hmem
  have hall : ∀ piece ∈ sheet.obuf.pieces, 0 < piece.text.length := by
    rw [hpieces]
    decide +kernel
  have hrow : sheet.OnRow ⟨⟨0, 0, 0⟩, 1⟩ 3 := ⟨pre, piece, post, hsplit, by rw [hshows]; rfl, 0,
    hall piece (hsplit ▸ List.mem_append_right _ List.mem_cons_self), hline⟩
  refine ⟨sheet, _, hsheet, ((set_meets_iff hsheet "3".toList).2 ?_ ?_).mpr (Or.inr ⟨_, hrow⟩)⟩
  · unfold OneLine Register.OneLine
    decide
  · intro i content hcontent
    cases hcontent
    decide

/-- Line 2 is a heading, which has no range, and line 5 the header of the other section. -/
theorem heading_and_header_not_meet : ∃ sheet t,
    exec (updateText ⟨fun _ _ => 0, fun _ _ => 0⟩ true headedReply) headed =
      some (.ok (some sheet), t) ∧
    ¬ Meets t.toState sheet "2".toList ∧ ¬ Meets t.toState sheet "5".toList := by
  obtain ⟨sheet, hsheet, hpieces⟩ := exists_headed
  have hnone : ∀ p l, l ∈ [2, 5] → ¬ sheet.OnRow p l := by
    intro p l hl hrow
    obtain ⟨⟨k, es, hentered⟩, -⟩ := entered_updateText True (fun _ => ⟨by
      unfold OneLine Register.OneLine
      decide, fun i content hcontent => by
      cases hcontent
      decide⟩) hsheet
    obtain ⟨a, row, hmem, hvalue, -, hline⟩ := hentered.mem_marks hrow
    obtain rfl := hline trivial
    have hmarks : ∀ e ∈ sheet.obuf.marks, e.1 ∈ [2, 5] → e.2.value? = none := by
      unfold Dynarray.marks
      rw [hpieces]
      decide +kernel
    rw [hmarks _ hmem hl] at hvalue
    cases hvalue
  have hnot : ∀ argv2, (atoi argv2).toNat ∈ [2, 5] → ¬ AboveAll
      (headed.updated ⟨fun _ _ => 0, fun _ _ => 0⟩ headedReply).toState (atoi argv2) →
      ¬ Meets (headed.updated ⟨fun _ _ => 0, fun _ _ => 0⟩ headedReply).toState sheet argv2 := by
    intro argv2 hl habove hmeets
    rcases (nearest_meets_iff hsheet argv2).mp hmeets with h | ⟨p, c, hrow, -⟩
    · exact habove h
    · exact hnone p _ hl hrow
  refine ⟨sheet, _, hsheet, hnot _ (by decide) ?_, hnot _ (by decide) ?_⟩
  · intro h
    exact absurd (h (2, ⟨⟨0, 0, 0⟩, 0⟩) (by decide +kernel)) (by decide)
  · intro h
    exact absurd (h (2, ⟨⟨0, 0, 0⟩, 0⟩) (by decide +kernel)) (by decide)

end Vimgdb.Per.View
