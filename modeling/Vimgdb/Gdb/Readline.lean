import Vimgdb.Gdb.Recovery

/-!
# Cutting gdb's output into chunks

`gdbif::readline_thread` collects the bytes of gdb's output and hands them to the parser when they
end with one of three texts.

* `readByte`, `feed`: the loop of the thread, byte by byte.
* `LineBuffer.Fits`: the size of the buffer, which is doubled up to 2 ^ 31.
* `Mi`, `RecordLine`: the lines of gdb's machine interface.
* `Keeps`: bytes that are collected without a cut; the records of a group are, unless one contains the
  text of a query.
* `feed_groups_iff`: the parser gets one chunk for each group of records iff no record contains that
  text, or a 0 byte, and each group fits into the buffer.
-/

namespace Vimgdb.Gdb

/-! ## The loop -/

/-- The texts at whose end the collected bytes are handed to the parser. -/
def endings : List CStr := ["(gdb)\n".toList, "(gdb) \n".toList, "(y or n) ".toList]

/-- The bytes collected so far, `line[0..i]`, and the size `len` of their buffer. -/
structure LineBuffer where
  line : CStr := []
  len : BitVec 32 := 256

/-- The size of the buffer when it holds `i` bytes: it is doubled when it is full.  `realloc` has no
memory of 0 bytes. -/
def grow (len i : BitVec 32) : Option (BitVec 32) :=
  if len ≤ i then (if len * 2 = 0 then none else some (len * 2)) else some len

/-- Do the bytes end with one of the texts? -/
def endsChunk (line : CStr) : Bool := endings.any fun e => e.isSuffixOf line

/-- One byte read from gdb: carriage returns are ignored, and behind an ending the parser is called.  It
sees the bytes up to the first 0.  Without memory the thread ends. -/
def readByte (b : LineBuffer) (c : Char) : Option (LineBuffer × Option CStr) :=
  if c = '\r' then some (b, none)
  else
    (grow b.len (BitVec.ofNat 32 (b.line.length + 1))).map fun len =>
      if endsChunk (b.line ++ [c]) then (⟨[], len⟩, some (scanned (b.line ++ [c])))
      else (⟨b.line ++ [c], len⟩, none)

/-- The bytes read from gdb one after the other, and the texts handed to the parser.  No buffer is left when
the thread has ended. -/
def feed (b : LineBuffer) : CStr → Option LineBuffer × List CStr
  | [] => (some b, [])
  | c :: s =>
      match readByte b c with
      | none => (none, [])
      | some r => ((feed r.1 s).1, r.2.toList ++ (feed r.1 s).2)

/-- The buffer has been doubled some times, and there is room for the terminating 0. -/
structure LineBuffer.Fits (b : LineBuffer) : Prop where
  room : b.line.length < b.len.toNat
  power : ∃ k ≤ 31, b.len.toNat = 2 ^ k

theorem fits_init : LineBuffer.Fits {} := ⟨by decide, 8, by decide, by decide⟩

section

variable {b : LineBuffer} {c : Char} {s t : CStr}

/-- Below 2 ^ 31 bytes the buffer grows with them. -/
theorem grow_eq (hb : b.Fits) (h : b.line.length + 1 < 2 ^ 31) :
    ∃ len, grow b.len (BitVec.ofNat 32 (b.line.length + 1)) = some len ∧
      b.line.length + 1 < len.toNat ∧ ∃ k ≤ 31, len.toNat = 2 ^ k := by
  obtain ⟨hroom, k, hk, hlen⟩ := hb
  have hi : (BitVec.ofNat 32 (b.line.length + 1)).toNat = b.line.length + 1 := by
    rw [BitVec.toNat_ofNat, Nat.mod_eq_of_lt (by omega)]
  unfold grow
  by_cases hfull : b.len ≤ BitVec.ofNat 32 (b.line.length + 1)
  · rw [BitVec.le_def, hi] at hfull
    have hk' : k < 31 := by
      by_contra hnot
      obtain rfl : k = 31 := by omega
      omega
    have hpow : 2 ^ (k + 1) ≤ 2 ^ 31 := Nat.pow_le_pow_right Nat.two_pos hk'
    have htwice : (b.len * 2).toNat = 2 ^ (k + 1) := by
      have htwo : (2 : BitVec 32).toNat = 2 := rfl
      rw [Nat.pow_succ] at hpow
      rw [BitVec.toNat_mul, hlen, Nat.pow_succ, htwo]
      exact Nat.mod_eq_of_lt (by omega)
    have hne : b.len * 2 ≠ 0 := by
      intro h0
      rw [h0] at htwice
      exact absurd htwice.symm (Nat.pow_pos Nat.two_pos).ne'
    rw [if_pos (by rwa [BitVec.le_def, hi]), if_neg hne]
    refine ⟨_, rfl, ?_, k + 1, hk', htwice⟩
    rw [htwice, Nat.pow_succ, ← hlen]
    omega
  · rw [if_neg hfull]
    rw [BitVec.le_def, hi] at hfull
    exact ⟨_, rfl, Nat.not_le.mp hfull, k, hk, hlen⟩

/-- The buffer for 2 ^ 31 bytes cannot be doubled. -/
theorem readByte_full (hb : b.Fits) (hc : c ≠ '\r') (h : 2 ^ 31 ≤ b.line.length + 1) :
    readByte b c = none := by
  obtain ⟨hroom, k, hk, hlen⟩ := hb
  have hk' : k = 31 := by
    by_contra hne
    have hpow : 2 ^ k ≤ 2 ^ 30 := Nat.pow_le_pow_right Nat.two_pos (by omega)
    omega
  subst hk'
  have hi : (BitVec.ofNat 32 (b.line.length + 1)).toNat = b.line.length + 1 := by
    rw [BitVec.toNat_ofNat, Nat.mod_eq_of_lt (by omega)]
  have hzero : b.len * 2 = 0 := by
    apply BitVec.eq_of_toNat_eq
    rw [BitVec.toNat_mul, hlen]
    rfl
  unfold readByte grow
  rw [if_neg hc, if_pos (by rw [BitVec.le_def, hi]; omega), if_pos hzero, Option.map_none]

/-- A byte that does not end a chunk is collected. -/
theorem readByte_keep (hb : b.Fits) (hc : c ≠ '\r') (h : b.line.length + 1 < 2 ^ 31)
    (hends : endsChunk (b.line ++ [c]) = false) :
    ∃ len, readByte b c = some (⟨b.line ++ [c], len⟩, none) ∧
      (LineBuffer.mk (b.line ++ [c]) len).Fits := by
  obtain ⟨len, hgrow, hroom, hpower⟩ := grow_eq hb h
  refine ⟨len, ?_, by rwa [List.length_append], hpower⟩
  unfold readByte
  rw [if_neg hc, hgrow, Option.map_some, hends, if_neg Bool.false_ne_true]

/-- The parser is called behind the byte that ends a chunk. -/
theorem readByte_ends (hb : b.Fits) (hc : c ≠ '\r') (h : b.line.length + 1 < 2 ^ 31)
    (hends : endsChunk (b.line ++ [c]) = true) :
    ∃ len, readByte b c = some (⟨[], len⟩, some (scanned (b.line ++ [c]))) ∧
      (LineBuffer.mk [] len).Fits := by
  obtain ⟨len, hgrow, hroom, hpower⟩ := grow_eq hb h
  refine ⟨len, ?_, (Nat.zero_le _).trans_lt hroom, hpower⟩
  unfold readByte
  rw [if_neg hc, hgrow, Option.map_some, hends, if_pos rfl]

theorem feed_append {b' : LineBuffer} {chunks : List CStr} (h : feed b s = (some b', chunks))
    (t : CStr) : feed b (s ++ t) = ((feed b' t).1, chunks ++ (feed b' t).2) := by
  induction s generalizing b chunks with
  | nil =>
      cases h
      rfl
  | cons c s ih =>
      rw [List.cons_append, feed]
      rw [feed] at h
      split at h
      · cases h
      · rename_i r hr
        obtain ⟨hb', rfl⟩ := Prod.mk.inj h
        rw [ih (Prod.ext hb' rfl), List.append_assoc]

end

/-! ## Carriage returns -/

/-- A text without its carriage returns. -/
def stripCr (s : CStr) : CStr := s.filter (· ≠ '\r')

/-- `u` is `s` with carriage returns put in. -/
inductive CrInserted : CStr → CStr → Prop
  | nil : CrInserted [] []
  | keep {s u : CStr} (c : Char) : CrInserted s u → CrInserted (c :: s) (c :: u)
  | insert {s u : CStr} : CrInserted s u → CrInserted s ('\r' :: u)

theorem CrInserted.stripCr_eq {s u : CStr} (h : CrInserted s u) : stripCr u = stripCr s := by
  induction h with
  | nil => rfl
  | keep c _ ih =>
      simp only [stripCr, List.filter_cons] at ih ⊢
      rw [ih]
  | insert _ ih => simpa [stripCr] using ih

theorem crInserted_stripCr (u : CStr) : CrInserted (stripCr u) u := by
  induction u with
  | nil => exact .nil
  | cons c u ih =>
      by_cases hc : c = '\r'
      · subst hc
        exact .insert (by simpa [stripCr] using ih)
      · have hcons : stripCr (c :: u) = c :: stripCr u := by simp [stripCr, hc]
        rw [hcons]
        exact .keep c ih

/-- Carriage returns do not matter. -/
theorem feed_stripCr (b : LineBuffer) (s : CStr) : feed b (stripCr s) = feed b s := by
  induction s generalizing b with
  | nil => rfl
  | cons c s ih =>
      by_cases hc : c = '\r'
      · subst hc
        have hstep : readByte b '\r' = some (b, none) := if_pos rfl
        rw [feed, hstep]
        dsimp only
        rw [← ih]
        simp [stripCr]
      · have hcons : stripCr (c :: s) = c :: stripCr s := by simp [stripCr, hc]
        rw [hcons, feed, feed]
        split
        · rfl
        · rw [ih]

/-! ## Record lines -/

/-- The inside of a quoted string: any characters, with newlines, quotes and backslashes escaped. -/
inductive Body : CStr → Prop
  | nil : Body []
  | plain {s : CStr} (c : Char) : c ≠ '\n' → c ≠ '"' → c ≠ '\\' → Body s → Body (c :: s)
  | escape {s : CStr} (c : Char) : c ≠ '\n' → Body s → Body ('\\' :: c :: s)

/-- Text without anything to escape. -/
theorem Body.of_plain {s : CStr} (h : ∀ c ∈ s, c ≠ '\n' ∧ c ≠ '"' ∧ c ≠ '\\') : Body s := by
  induction s with
  | nil => exact .nil
  | cons c s ih =>
      obtain ⟨h₁, h₂, h₃⟩ := h c List.mem_cons_self
      exact .plain c h₁ h₂ h₃ (ih fun c hc => h c (List.mem_cons_of_mem _ hc))

/-- A name in a record. -/
def Name (s : CStr) : Prop := s ≠ [] ∧ ∀ c ∈ s, c.isAlphanum ∨ c ∈ ['_', '-', '.']

/-- The parts of a record. -/
inductive Part
  | value
  | item
  | items

/-- The texts of values, of items (values with or without a name) and of items separated by
commas. -/
inductive Mi : Part → CStr → Prop
  | cstring {s : CStr} : Body s → Mi .value ('"' :: s ++ ['"'])
  | tuple {s : CStr} : Mi .items s → Mi .value ('{' :: s ++ ['}'])
  | list {s : CStr} : Mi .items s → Mi .value ('[' :: s ++ [']'])
  | plain {v : CStr} : Mi .value v → Mi .item v
  | named {x v : CStr} : Name x → Mi .value v → Mi .item (x ++ '=' :: v)
  | none : Mi .items []
  | one {i : CStr} : Mi .item i → Mi .items i
  | more {i s : CStr} : Mi .item i → Mi .items s → Mi .items (i ++ ',' :: s)

/-- The line of a result, async or stream record. -/
inductive RecordLine : CStr → Prop
  | bare {t c : CStr} {mark : Char} : (∀ d ∈ t, d.isDigit) → mark ∈ ['^', '*', '+', '='] → Name c →
      RecordLine (t ++ mark :: c)
  | results {t c s : CStr} {mark : Char} : (∀ d ∈ t, d.isDigit) → mark ∈ ['^', '*', '+', '='] →
      Name c → Mi .items s → s ≠ [] → RecordLine (t ++ mark :: c ++ ',' :: s)
  | stream {s : CStr} {mark : Char} : mark ∈ ['~', '@', '&'] → Body s →
      RecordLine (mark :: '"' :: s ++ ['"'])

/-- The text ends with a character a prompt does not end with. -/
def EndsPlain (s : CStr) : Prop := ∃ x a, s = x ++ [a] ∧ a ∉ [')', ' ', '\r']

theorem EndsPlain.append {s : CStr} (h : EndsPlain s) (u : CStr) : EndsPlain (u ++ s) := by
  obtain ⟨x, a, rfl, ha⟩ := h
  exact ⟨u ++ x, a, by simp, ha⟩

theorem Body.noNewline {s : CStr} (h : Body s) : '\n' ∉ s := by
  induction h with
  | nil => simp
  | plain c hc _ _ _ ih => simp [Ne.symm hc, ih]
  | escape c hc _ ih => simp [Ne.symm hc, ih]

theorem Name.noNewline {s : CStr} (h : Name s) : '\n' ∉ s := fun hmem => by
  rcases h.2 _ hmem with h | h
  · exact absurd h (by decide)
  · exact absurd h (by decide)

theorem Name.endsPlain {s : CStr} (h : Name s) : EndsPlain s := by
  refine ⟨s.dropLast, s.getLast h.1, (List.dropLast_concat_getLast h.1).symm, fun hmem => ?_⟩
  simp only [List.mem_cons, List.not_mem_nil, or_false] at hmem
  rcases h.2 _ (List.getLast_mem h.1) with hc | hc <;>
    rcases hmem with h' | h' | h' <;> rw [h'] at hc <;> exact absurd hc (by decide)

/-- No part of a record contains a newline, and all but the empty one end plainly. -/
theorem Mi.spec {part : Part} {s : CStr} (h : Mi part s) :
    '\n' ∉ s ∧ (part ≠ .items ∨ s ≠ [] → EndsPlain s) := by
  induction h with
  | cstring hb => exact ⟨by simp [hb.noNewline], fun _ => ⟨_, '"', rfl, by decide⟩⟩
  | tuple _ ih => exact ⟨by simp [ih.1], fun _ => ⟨_, '}', rfl, by decide⟩⟩
  | list _ ih => exact ⟨by simp [ih.1], fun _ => ⟨_, ']', rfl, by decide⟩⟩
  | plain _ ih => exact ⟨ih.1, fun _ => ih.2 (Or.inl (by simp))⟩
  | @named x v hx _ ih =>
      refine ⟨by simp [hx.noNewline, ih.1], fun _ => ?_⟩
      have := (ih.2 (Or.inl (by simp))).append (x ++ ['='])
      simpa using this
  | none => exact ⟨by simp, by simp⟩
  | one _ ih => exact ⟨ih.1, fun _ => ih.2 (Or.inl (by simp))⟩
  | @more i s _ _ ihi ihs =>
      refine ⟨by simp [ihi.1, ihs.1], fun _ => ?_⟩
      by_cases hs : s = []
      · subst hs
        exact ⟨i, ',', rfl, by decide⟩
      · have := (ihs.2 (Or.inr hs)).append (i ++ [','])
        simpa using this

/-- A record line is one line, and it does not end like a prompt. -/
theorem RecordLine.spec {l : CStr} (h : RecordLine l) : '\n' ∉ l ∧ EndsPlain l := by
  have hdigits : ∀ {t : CStr}, (∀ d ∈ t, d.isDigit) → '\n' ∉ t := fun ht hmem =>
    absurd (ht _ hmem) (by decide)
  cases h with
  | @bare t c mark ht hm hc =>
      have hmark : '\n' ≠ mark := by rintro rfl; exact absurd hm (by decide)
      refine ⟨by simp [hdigits ht, hmark, hc.noNewline], ?_⟩
      have := hc.endsPlain.append (t ++ [mark])
      simpa using this
  | @results t c s mark ht hm hc hs hne =>
      have hmark : '\n' ≠ mark := by rintro rfl; exact absurd hm (by decide)
      refine ⟨by simp [hdigits ht, hmark, hc.noNewline, hs.spec.1], ?_⟩
      have := (hs.spec.2 (Or.inr hne)).append (t ++ mark :: c ++ [','])
      simpa using this
  | @stream s mark hm hs =>
      have hmark : '\n' ≠ mark := by rintro rfl; exact absurd hm (by decide)
      exact ⟨by simp [hmark, hs.noNewline], ⟨mark :: '"' :: s, '"', rfl, by decide⟩⟩

/-! ## Collecting a record -/

/-- The text of a query. -/
def query : CStr := "(y or n) ".toList

/-- No line has been collected, or the last one is complete. -/
def AtLineStart (line : CStr) : Prop := line = [] ∨ line.getLast? = some '\n'

/-- The bytes are collected: behind those that have been, no ending is reached. -/
def Keeps (line s : CStr) : Prop := ∀ p, p <+: s → p ≠ [] → ∀ e ∈ endings, ¬ e <:+ line ++ p

section

variable {b : LineBuffer} {line s t : CStr}

theorem keeps_nil (line : CStr) : Keeps line [] := fun _ hp hne => absurd (List.prefix_nil.mp hp) hne

theorem Keeps.append (h : Keeps line s) (h' : Keeps (line ++ s) t) : Keeps line (s ++ t) := by
  intro p hp hne e he
  rcases List.prefix_or_prefix_of_prefix hp (List.prefix_append s t) with hs | ⟨q, rfl⟩
  · exact h p hs hne e he
  · by_cases hq : q = []
    · subst hq
      rw [List.append_nil] at hne ⊢
      exact h s List.prefix_rfl hne e he
    · rw [← List.append_assoc]
      exact h' q ((List.prefix_append_right_inj s).mp hp) hq e he

/-- A byte of such bytes does not end a chunk. -/
theorem Keeps.head {c : Char} (h : Keeps line (c :: s)) :
    endsChunk (line ++ [c]) = false ∧ Keeps (line ++ [c]) s := by
  constructor
  · rw [endsChunk, List.any_eq_false]
    intro e he hsuf
    exact h [c] ⟨s, rfl⟩ (List.cons_ne_nil c []) e he (List.isSuffixOf_iff_suffix.mp hsuf)
  · intro p hp hne e he hsuf
    rw [List.append_assoc] at hsuf
    exact h (c :: p) (List.cons_prefix_cons.mpr ⟨rfl, hp⟩) (List.cons_ne_nil c p) e he hsuf

/-- Less than 2 ^ 31 bytes are collected. -/
theorem feed_keep (hb : b.Fits) (hcr : '\r' ∉ s) (h : Keeps b.line s)
    (hlen : (b.line ++ s).length < 2 ^ 31) :
    ∃ len, feed b s = (some ⟨b.line ++ s, len⟩, []) ∧ (LineBuffer.mk (b.line ++ s) len).Fits := by
  induction s generalizing b with
  | nil =>
      rw [List.append_nil]
      exact ⟨b.len, rfl, hb⟩
  | cons c s ih =>
      rw [List.mem_cons, not_or] at hcr
      have hsplit : b.line ++ c :: s = b.line ++ [c] ++ s := List.append_cons _ _ _
      obtain ⟨hends, hkeeps⟩ := h.head
      have hshort : b.line.length + 1 < 2 ^ 31 := by
        rw [List.length_append, List.length_cons] at hlen
        omega
      obtain ⟨len, hstep, hfits⟩ := readByte_keep hb (Ne.symm hcr.1) hshort hends
      rw [hsplit] at hlen ⊢
      obtain ⟨len', hrest, hfits'⟩ := ih hfits hcr.2 hkeeps hlen
      refine ⟨len', ?_, hfits'⟩
      rw [feed, hstep]
      dsimp only
      rw [hrest]
      rfl

/-- The thread ends at the byte behind which the buffer would have no size. -/
theorem feed_full {c : Char} (hb : b.Fits) (hcr : '\r' ∉ s) (hc : c ≠ '\r') (h : Keeps b.line s)
    (hlen : 2 ^ 31 ≤ (b.line ++ s).length + 1) (t : CStr) : feed b (s ++ c :: t) = (none, []) := by
  induction s generalizing b with
  | nil =>
      rw [List.append_nil] at hlen
      rw [List.nil_append, feed, readByte_full hb hc hlen]
  | cons d s ih =>
      rw [List.mem_cons, not_or] at hcr
      by_cases hfull : 2 ^ 31 ≤ b.line.length + 1
      · rw [List.cons_append, feed, readByte_full hb (Ne.symm hcr.1) hfull]
      · obtain ⟨hends, hkeeps⟩ := h.head
        obtain ⟨len, hstep, hfits⟩ :=
          readByte_keep hb (Ne.symm hcr.1) (Nat.not_le.mp hfull) hends
        have hrest := ih hfits hcr.2 hkeeps (by rwa [← List.append_cons])
        rw [List.cons_append, feed, hstep]
        dsimp only
        rw [hrest]
        rfl

/-- An ending without a newline lies in the current line. -/
theorem suffix_of_atLine (hb : AtLineStart line) {e p : CStr} (he : '\n' ∉ e) (h : e <:+ line ++ p) :
    e <:+ p := by
  by_cases hlen : e.length ≤ p.length
  · exact List.suffix_of_suffix_length_le h (List.suffix_append _ _) hlen
  · -- otherwise it reaches back over the newline
    obtain ⟨x, rfl⟩ := List.suffix_of_suffix_length_le (List.suffix_append line p) h (by omega)
    have hx : x <:+ line := by
      obtain ⟨y, hy⟩ := h
      exact ⟨y, List.append_cancel_right (by simpa using hy)⟩
    have hne : x ≠ [] := by
      rintro rfl
      simp at hlen
    obtain ⟨y, hy⟩ := hx
    have hlast : line.getLast? = x.getLast? := by
      rw [← hy, List.getLast?_append_of_ne_nil _ hne]
    rcases hb with hb | hb
    · rw [hb] at hy
      exact absurd (List.append_eq_nil_iff.mp hy).2 hne
    · rw [hlast] at hb
      exact absurd (List.mem_append_left p (List.mem_of_getLast? hb)) he

end

/-- The endings other than that of a query end with a newline behind a parenthesis or a blank. -/
private theorem endings_cases : ∀ e ∈ endings, e = query ∨
    ∃ x a, e = x ++ [a] ++ ['\n'] ∧ a ∈ [')', ' ', '\r'] := by
  intro e he
  simp only [endings, List.mem_cons, List.not_mem_nil, or_false] at he
  rcases he with rfl | rfl | rfl
  · exact Or.inr ⟨"(gdb".toList, ')', rfl, by decide⟩
  · exact Or.inr ⟨"(gdb)".toList, ' ', rfl, by decide⟩
  · exact Or.inl rfl

/-- The end of a list, read off a suffix. -/
private theorem getLast?_of_suffix {e s : CStr} {a : Char} (h : e ++ [a] <:+ s) :
    s.getLast? = some a := by
  obtain ⟨x, rfl⟩ := h
  rw [← List.append_assoc, List.getLast?_concat]

/-- Inside a line only the text of a query ends a chunk. -/
private theorem noEnding {line : CStr} (hb : AtLineStart line) {p : CStr} (hnl : '\n' ∉ p) (hp : p ≠ [])
    (hq : ¬ query <:+ p) : ∀ e ∈ endings, ¬ e <:+ line ++ p := by
  intro e he hsuf
  rcases endings_cases e he with rfl | ⟨x, a, rfl, -⟩
  · exact hq (suffix_of_atLine hb (by decide) hsuf)
  · have hlast := getLast?_of_suffix hsuf
    rw [List.getLast?_append_of_ne_nil _ hp] at hlast
    exact hnl (List.mem_of_getLast? hlast)

/-- A line that does not end like a prompt is collected, unless it contains the text of a query. -/
theorem keeps_line {line l : CStr} (hb : AtLineStart line) (hnl : '\n' ∉ l) (hend : EndsPlain l)
    (hq : ¬ query <:+: l) : Keeps line (l ++ ['\n']) := by
  intro p hp hne
  by_cases hp' : p <+: l
  · exact noEnding hb (fun h => hnl (hp'.subset h)) hne fun h => hq (h.isInfix.trans hp'.isInfix)
  · -- the whole line with its newline
    obtain rfl : p = l ++ ['\n'] := (List.prefix_concat_iff.mp hp).resolve_right hp'
    intro e he hsuf
    rw [← List.append_assoc] at hsuf
    obtain ⟨y, c, rfl, hc⟩ := hend
    rcases endings_cases e he with rfl | ⟨x, a, rfl, ha⟩
    · have hlast := getLast?_of_suffix (e := "(y or n)".toList) (a := ' ') hsuf
      rw [List.getLast?_concat] at hlast
      exact absurd hlast (by decide)
    · obtain ⟨z, hz⟩ := hsuf
      rw [← List.append_assoc, ← List.append_assoc] at hz
      have hz := List.append_cancel_right hz
      rw [← List.append_assoc] at hz
      have := (List.append_inj' hz rfl).2
      exact hc (List.singleton_inj.mp this ▸ ha)

/-- A prompt is collected up to its newline. -/
theorem keeps_prompt {line : CStr} (hb : AtLineStart line) : Keeps line "(gdb) ".toList := by
  intro p hp hne
  refine noEnding hb (fun h => ?_) hne fun h => ?_
  · exact absurd (hp.subset h) (by decide)
  · exact absurd (h.isInfix.trans hp.isInfix) (by decide)

/-- The newline of a prompt ends the chunk. -/
theorem endsChunk_prompt (line : CStr) : endsChunk (line ++ "(gdb) ".toList ++ ['\n']) = true := by
  rw [endsChunk, List.any_eq_true]
  refine ⟨prompt, by decide, List.isSuffixOf_iff_suffix.mpr ?_⟩
  rw [List.append_assoc]
  exact List.suffix_append line prompt

/-- An ending inside the text cuts a chunk there or earlier, unless the thread has ended before. -/
theorem feed_early {b : LineBuffer} {p : CStr} (hcr : '\r' ∉ p) (hne : p ≠ []) {e : CStr}
    (he : e ∈ endings) (hsuf : e <:+ b.line ++ p) (t : CStr) :
    (feed b (p ++ t)).2 = [] ∨ ∃ chunk chunks, (feed b (p ++ t)).2 = chunk :: chunks ∧
      chunk.length ≤ (b.line ++ p).length := by
  induction p generalizing b with
  | nil => exact absurd rfl hne
  | cons c p ih =>
      rw [List.mem_cons, not_or] at hcr
      rw [List.cons_append, feed, readByte, if_neg (Ne.symm hcr.1)]
      cases hgrow : grow b.len (BitVec.ofNat 32 (b.line.length + 1)) with
      | none => exact .inl rfl
      | some len =>
          rw [Option.map_some]
          by_cases hend : endsChunk (b.line ++ [c]) = true
          · rw [if_pos hend]
            refine .inr ⟨scanned (b.line ++ [c]), (feed ⟨[], len⟩ (p ++ t)).2, rfl, ?_⟩
            have := (List.takeWhile_sublist (fun c : Char => decide (c ≠ '\x00'))
              (l := b.line ++ [c])).length_le
            simp only [scanned, List.length_append, List.length_cons, List.length_nil] at this ⊢
            omega
          · have hp : p ≠ [] := by
              rintro rfl
              exact hend (by rw [endsChunk, List.any_eq_true]; exact ⟨e, he, by simpa using hsuf⟩)
            rw [if_neg hend, List.append_cons b.line c p]
            rw [List.append_cons b.line c p] at hsuf
            exact ih (b := ⟨b.line ++ [c], len⟩) hcr.2 hp hsuf

/-! ## Groups of records -/

/-- The bytes the parser has to get for a group of lines and the prompt behind it. -/
def groupText (g : List CStr) : CStr := stripCr (text g ++ prompt)

/-- The output of gdb: groups of lines, each with a prompt behind it. -/
def stream (groups : List (List CStr)) : CStr := groups.flatMap fun g => text g ++ prompt

theorem stripCr_append (s t : CStr) : stripCr (s ++ t) = stripCr s ++ stripCr t :=
  List.filter_append _ _

theorem stripCr_newline (s : CStr) : stripCr ('\n' :: s) = '\n' :: stripCr s := rfl

theorem stripCr_text (g : List CStr) : stripCr (text g) = text (g.map stripCr) := by
  induction g with
  | nil => rfl
  | cons l g ih =>
      rw [text_cons, stripCr_append, stripCr_newline, List.map_cons, text_cons, ← ih]

/-- A record stays a plain line without its carriage returns. -/
theorem RecordLine.stripCr {l : CStr} (h : RecordLine l) :
    '\r' ∉ Gdb.stripCr l ∧ '\n' ∉ Gdb.stripCr l ∧ EndsPlain (Gdb.stripCr l) := by
  obtain ⟨hnl, x, a, rfl, ha⟩ := h.spec
  refine ⟨by simp [Gdb.stripCr], fun hmem => hnl (List.mem_of_mem_filter hmem), ?_⟩
  have hcr : a ≠ '\r' := by rintro rfl; exact ha (by decide)
  exact ⟨Gdb.stripCr x, a, by simp [Gdb.stripCr, hcr], ha⟩

/-- Records without the text of a query are collected. -/
theorem keeps_records {line : CStr} (hb : AtLineStart line) {g : List CStr}
    (hg : ∀ l ∈ g, RecordLine l ∧ ¬ query <:+: stripCr l) : Keeps line (stripCr (text g)) := by
  induction g generalizing line with
  | nil => exact keeps_nil line
  | cons l g ih =>
      obtain ⟨hl, hq⟩ := hg l List.mem_cons_self
      obtain ⟨-, hnl, hend⟩ := hl.stripCr
      have hsplit : stripCr (text (l :: g)) = (stripCr l ++ ['\n']) ++ stripCr (text g) := by
        rw [text_cons, stripCr_append, stripCr_newline, List.append_assoc, List.singleton_append]
      have hb' : AtLineStart (line ++ (stripCr l ++ ['\n'])) :=
        .inr (by rw [← List.append_assoc, List.getLast?_concat])
      rw [hsplit]
      exact (keeps_line hb hnl hend hq).append (ih hb' fun l hl => hg l (List.mem_cons_of_mem _ hl))

/-- A group up to the newline of its prompt. -/
theorem groupText_eq (g : List CStr) :
    groupText g = stripCr (text g) ++ "(gdb) ".toList ++ ['\n'] := by
  have hprompt : stripCr prompt = "(gdb) ".toList ++ ['\n'] := by decide
  rw [groupText, stripCr_append, hprompt, List.append_assoc]

theorem keeps_group {g : List CStr} (hg : ∀ l ∈ g, RecordLine l ∧ ¬ query <:+: stripCr l) :
    Keeps [] (stripCr (text g) ++ "(gdb) ".toList) := by
  have hline : AtLineStart (stripCr (text g)) := by
    rw [stripCr_text]
    exact text_ends (g.map stripCr)
  exact (keeps_records (.inl rfl) hg).append (keeps_prompt hline)

/-- A group holds no carriage return. -/
theorem cr_notMem_group (g : List CStr) : '\r' ∉ stripCr (text g) ++ "(gdb) ".toList := by
  have hmem : '\r' ∉ groupText g := by simp [groupText, stripCr]
  rw [groupText_eq] at hmem
  exact fun h => hmem (List.mem_append_left _ h)

/-- The text of a query in a record cuts the chunk before the group ends, if there is a chunk. -/
theorem feed_query (len : BitVec 32) {g : List CStr} {l : CStr} (hl : l ∈ g)
    (hq : query <:+: stripCr l) (t : CStr) :
    (feed ⟨[], len⟩ (groupText g ++ t)).2 = [] ∨
      ∃ chunk chunks, (feed ⟨[], len⟩ (groupText g ++ t)).2 = chunk :: chunks ∧
        chunk.length < (groupText g).length := by
  obtain ⟨pre, post, rfl⟩ := List.append_of_mem hl
  obtain ⟨x, y, hxy⟩ := hq
  have hsplit : groupText (pre ++ l :: post) = (stripCr (text pre) ++ x ++ query) ++
      (y ++ '\n' :: stripCr (text post ++ prompt)) := by
    rw [groupText, text_append, text_cons, List.append_assoc, List.append_assoc, List.cons_append,
      stripCr_append, stripCr_append, stripCr_newline, ← hxy]
    simp only [List.append_assoc]
  have hcr : '\r' ∉ stripCr (text pre) ++ x ++ query := by
    have : '\r' ∉ groupText (pre ++ l :: post) := by simp [groupText, stripCr]
    rw [hsplit] at this
    exact fun h => this (List.mem_append_left _ h)
  have hne : stripCr (text pre) ++ x ++ query ≠ [] :=
    List.append_ne_nil_of_right_ne_nil _ (by decide)
  have hearly := feed_early (b := ⟨[], len⟩) hcr hne (show query ∈ endings by decide)
    (List.suffix_append _ _) ((y ++ '\n' :: stripCr (text post ++ prompt)) ++ t)
  rw [hsplit, List.append_assoc _ _ t]
  refine hearly.imp id ?_
  rintro ⟨chunk, chunks, hfeed, hlen⟩
  refine ⟨chunk, chunks, hfeed, ?_⟩
  rw [List.nil_append] at hlen
  generalize stripCr (text pre) ++ x ++ query = front at hlen ⊢
  rw [List.length_append, List.length_append, List.length_cons]
  omega

/-- Records without the text of a query are handed to the parser with their prompt. -/
theorem feed_group {len : BitVec 32} (hlen : (LineBuffer.mk [] len).Fits) {g : List CStr}
    (hg : ∀ l ∈ g, RecordLine l ∧ ¬ query <:+: stripCr l) (hshort : (groupText g).length < 2 ^ 31) :
    ∃ len', feed ⟨[], len⟩ (groupText g) = (some ⟨[], len'⟩, [scanned (groupText g)]) ∧
      (LineBuffer.mk [] len').Fits := by
  rw [groupText_eq] at hshort ⊢
  have hfront : (stripCr (text g) ++ "(gdb) ".toList).length + 1 < 2 ^ 31 := by
    rwa [List.length_append] at hshort
  obtain ⟨len₁, hkeep, hfits⟩ :=
    feed_keep hlen (cr_notMem_group g) (keeps_group hg) ((Nat.lt_succ_self _).trans hfront)
  obtain ⟨len₂, hstep, hfits'⟩ := readByte_ends hfits (by decide) hfront (endsChunk_prompt _)
  refine ⟨len₂, ?_, hfits'⟩
  rw [feed_append hkeep, feed, hstep]
  rfl

/-- A group that does not fit into the buffer ends the thread. -/
theorem feed_long {len : BitVec 32} (hlen : (LineBuffer.mk [] len).Fits) {g : List CStr}
    (hg : ∀ l ∈ g, RecordLine l ∧ ¬ query <:+: stripCr l) (hlong : 2 ^ 31 ≤ (groupText g).length)
    (t : CStr) : feed ⟨[], len⟩ (groupText g ++ t) = (none, []) := by
  rw [groupText_eq] at hlong ⊢
  rw [List.append_assoc, List.singleton_append]
  exact feed_full hlen (cr_notMem_group g) (by decide) (keeps_group hg)
    (by rwa [List.length_append] at hlong) t

/-- The parser sees the whole text iff no line holds a 0 byte. -/
theorem scanned_groupText_iff (g : List CStr) :
    scanned (groupText g) = groupText g ↔ ∀ l ∈ g, '\x00' ∉ l := by
  have hmem : '\x00' ∈ groupText g ↔ ∃ l ∈ g, '\x00' ∈ l := by
    have hprompt : '\x00' ∉ prompt := by decide
    simp [groupText, stripCr, text, hprompt]
  constructor
  · intro h l hl hnul
    have hin := hmem.mpr ⟨l, hl, hnul⟩
    rw [← h] at hin
    exact notMem_scanned _ hin
  · intro h
    exact scanned_of_notMem fun hnul => by
      obtain ⟨l, hl, hnul⟩ := hmem.mp hnul
      exact h l hl hnul

/-- A group that is handed to the parser as one chunk. -/
structure Whole (g : List CStr) : Prop where
  query : ∀ l ∈ g, ¬ Gdb.query <:+: stripCr l
  nul : ∀ l ∈ g, '\x00' ∉ l
  short : (groupText g).length < 2 ^ 31

/-- The groups, without their carriage returns, from an empty buffer. -/
theorem feed_stream_iff {len : BitVec 32} (hlen : (LineBuffer.mk [] len).Fits)
    {groups : List (List CStr)} (hrecords : ∀ g ∈ groups, ∀ l ∈ g, RecordLine l) :
    ((feed ⟨[], len⟩ (stripCr (stream groups))).2 = groups.map groupText ∧
        (feed ⟨[], len⟩ (stripCr (stream groups))).1.map LineBuffer.line = some []) ↔
      ∀ g ∈ groups, Whole g := by
  induction groups generalizing len with
  | nil => simp [stream, stripCr, feed]
  | cons g groups ih =>
      have hg := hrecords g List.mem_cons_self
      have hstream : stripCr (stream (g :: groups)) = groupText g ++ stripCr (stream groups) := by
        rw [stream, List.flatMap_cons, stripCr_append]
        rfl
      rw [hstream, List.map_cons, List.forall_mem_cons]
      by_cases hq : ∃ l ∈ g, query <:+: stripCr l
      · obtain ⟨l, hl, hq⟩ := hq
        refine iff_of_false (fun h => ?_) fun h => h.1.query l hl hq
        rcases feed_query len hl hq (stripCr (stream groups)) with hnone | ⟨chunk, chunks, hfeed, hlt⟩
        · rw [hnone] at h
          cases h.1
        · rw [hfeed] at h
          obtain ⟨rfl, -⟩ := List.cons.inj h.1
          exact lt_irrefl _ hlt
      push Not at hq
      have hlines : ∀ l ∈ g, RecordLine l ∧ ¬ query <:+: stripCr l := fun l hl => ⟨hg l hl, hq l hl⟩
      by_cases hlong : 2 ^ 31 ≤ (groupText g).length
      · rw [feed_long hlen hlines hlong]
        exact iff_of_false (fun h => absurd h.1 nofun) fun h => absurd h.1.short (Nat.not_lt.mpr hlong)
      have hshort := Nat.not_le.mp hlong
      obtain ⟨len', hfeed, hfits⟩ := feed_group hlen hlines hshort
      have hih := ih hfits fun g hg => hrecords g (List.mem_cons_of_mem _ hg)
      rw [feed_append hfeed, List.singleton_append, List.cons.injEq, scanned_groupText_iff, and_assoc, hih]
      exact and_congr_left fun _ => ⟨fun hnul => ⟨hq, hnul, hshort⟩, Whole.nul⟩

/-- The parser gets exactly one chunk for each group, its text up to the prompt, wherever carriage
returns have been put in, iff no record contains the text of a query or a 0 byte, and each group has less
than 2 ^ 31 bytes. -/
theorem feed_groups_iff {groups : List (List CStr)} (hrecords : ∀ g ∈ groups, ∀ l ∈ g, RecordLine l)
    {u : CStr} (hu : CrInserted (stream groups) u) :
    ((feed {} u).2 = groups.map groupText ∧ (feed {} u).1.map LineBuffer.line = some []) ↔
      ∀ g ∈ groups, Whole g := by
  rw [← feed_stripCr, hu.stripCr_eq]
  exact feed_stream_iff fits_init hrecords

/-- A result and a stream record, with a carriage return in front of every newline. -/
theorem feed_two_groups :
    (feed {} "1^done\r\n(gdb) \r\n~\"a\"\r\n(gdb) \r\n".toList).2 =
      [["1^done".toList], ["~\"a\"".toList]].map groupText := by
  have hname : Name "done".toList := ⟨by decide, forall_mem_of_all (by decide)⟩
  have hdone : RecordLine "1^done".toList :=
    @RecordLine.bare "1".toList "done".toList '^' (forall_mem_of_all (by decide)) (by decide) hname
  have hstream : RecordLine "~\"a\"".toList :=
    @RecordLine.stream "a".toList '~' (by decide) (.of_plain (forall_mem_of_all (by decide)))
  refine ((@feed_groups_iff [["1^done".toList], ["~\"a\"".toList]] ?_ _ ?_).mpr ?_).1
  · simp only [List.mem_cons, List.not_mem_nil, or_false]
    rintro g (rfl | rfl) l hl
    · obtain rfl := List.mem_singleton.mp hl; exact hdone
    · obtain rfl := List.mem_singleton.mp hl; exact hstream
  · have hstrip : stream [["1^done".toList], ["~\"a\"".toList]] =
        stripCr "1^done\r\n(gdb) \r\n~\"a\"\r\n(gdb) \r\n".toList := by decide
    rw [hstrip]
    exact crInserted_stripCr _
  · simp only [List.mem_cons, List.not_mem_nil, or_false]
    rintro g (rfl | rfl)
    · exact ⟨by decide, by decide, by decide⟩
    · exact ⟨by decide, by decide, by decide⟩

/-- The text of a query in a stream record is taken for its end. -/
theorem query_cuts_record :
    RecordLine "~\"Delete? (y or n) \"".toList ∧
      (feed {} (stream [["~\"Delete? (y or n) \"".toList]])).2 ≠
        [["~\"Delete? (y or n) \"".toList]].map groupText :=
  ⟨@RecordLine.stream "Delete? (y or n) ".toList '~' (by decide)
      (.of_plain (forall_mem_of_all (by decide))),
    by decide +kernel⟩

end Vimgdb.Gdb
