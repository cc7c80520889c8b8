import Vimgdb.Gdb.FrameFields
import Vimgdb.User.MemoryRows

/-!
# The addresses of a memory dump

What the rows of `cmd_memory_update` are labelled with, for any contents of a segment.

* `placed`: the bytes, with the labels of their rows and the columns in them.
* `Labelled`: the header shows the address, and label and column of each byte lead to its address.
* `Adds`: what is printed by the functions of the update.
* `labelled_showSegment`: a segment is labelled with the address that its `begin` is read as.
* `lengthened_iff`: the records that get their length, and their rows the true addresses.
-/

namespace Vimgdb.Memory.View

open Buffers Escape MarkedText Printf Programs
open Gdb (Reply IsAddr addrValue memoryBody FrameField frameTokens frameBody)

/-! ## Labels -/

/-- The label of a row. -/
def labelText (x : Nat) : CStr := " \xc2\xb4h1".toList ++ addrDigits x ++ "`h1    ".toList

/-- The header of a segment at an address. -/
def headerText (mem : Segment) (x : Nat) : CStr :=
  "[".toList ++ [if mem.expanded then '-' else '+'] ++ "] \xc2\xb4h0memory dump: ".toList ++
    addrDigits x ++ "`h0 (".toList ++ Spec.signed {} mem.length.toNat ++ " bytes)\n".toList

/-- Each byte, with the label of its row and the column in it. -/
def placed (label : CStr) (col : Nat) : List (Piece Char Mark) → List (Nat × CStr × Nat)
  | [] => []
  | p :: ps =>
      match p.shows.map Mark.part with
      | some (.row _) => placed p.text 0 ps
      | some .pad => placed label (col + 1) ps
      | some (.byte i) => (i, label, col) :: placed label (col + 1) ps
      | _ => placed label col ps

/-- The pieces of a segment at an address: the header shows it, and of each byte the label and the column
lead to its address. -/
structure Labelled (mem : Segment) (base : Nat) (ps : List (Piece Char Mark)) : Prop where
  header : (ps.filter fun p => p.shows.map Mark.part = some .header).map Piece.text =
    [headerText mem base]
  bytes : mem.expanded = true → (placed [] 0 ps).map Prod.fst = List.range mem.length.toNat
  rows : ∀ e ∈ placed [] 0 ps, ∃ x, e.2.1 = labelText x ∧ x + e.2.2 = base + e.1

/-! ## What is printed -/

/-- Pieces have been printed. -/
def Adds (sheet : Sheet) (ps : List (Piece Char Mark)) (sheet' : Sheet) : Prop :=
  sheet'.obuf.pieces = sheet.obuf.pieces ++ ps

variable {junk : Char} {a j j' n : Nat} {sheet sheet' sheet'' : Sheet} {part : Part} {fmt : String}
  {args : List Arg} {mem : Segment} {addr addr' : BitVec 64} {content old : CStr}
  {ps qs : List (Piece Char Mark)}

theorem adds_refl (sheet : Sheet) : Adds sheet [] sheet :=
  (List.append_nil sheet.obuf.pieces).symm

theorem Adds.trans (h : Adds sheet ps sheet') (h' : Adds sheet' qs sheet'') :
    Adds sheet (ps ++ qs) sheet'' := by
  unfold Adds at *
  rw [h', h, List.append_assoc]

theorem adds_add (h : sheet.add a part fmt args = some sheet') :
    ∃ t, vsnprintf fmt.toList args = some t ∧ Adds sheet [⟨t, some ⟨a, part⟩⟩] sheet' := by
  obtain ⟨obuf, hadd, rfl⟩ := Option.map_eq_some_iff.mp h
  exact Dynarray.pieces_of_add hadd

theorem adds_store {c : Char} (h : sheet.store j c = some sheet') : Adds sheet [] sheet' := by
  obtain ⟨mem, -, rfl⟩ := Option.map_eq_some_iff.mp h
  exact adds_refl sheet

theorem adds_fill (h : fill a n j sheet = some (j', sheet')) :
    Adds sheet (List.replicate n ⟨"??".toList, some ⟨a, .pad⟩⟩) sheet' := by
  induction n generalizing j sheet with
  | zero =>
      cases h
      exact adds_refl _
  | succ n ih =>
      unfold fill at h
      simp only [Option.bind_eq_bind, Option.bind_eq_some_iff] at h
      obtain ⟨sheet₁, hadd, sheet₂, hstore, hrest⟩ := h
      obtain ⟨t, ht, hadds⟩ := adds_add hadd
      obtain rfl : t = "??".toList := (Option.some.inj ht).symm
      exact hadds.trans ((adds_store hstore).trans (ih hrest))

theorem adds_flush (h : flush junk a j sheet = some sheet') :
    ∃ row t, Adds sheet [⟨t, some ⟨a, .ascii row⟩⟩] sheet' := by
  unfold flush at h
  simp only [Option.bind_eq_bind, Option.bind_eq_some_iff] at h
  obtain ⟨sheet₁, hstore, row, -, asciib, -, s, -, sheet₂, hadd, heq⟩ := h
  cases heq
  obtain ⟨t, -, hadds⟩ := adds_add hadd
  exact ⟨row, t, (adds_store hstore).trans hadds⟩

theorem adds_showAddr (h : showAddr a addr sheet = some sheet') :
    Adds sheet [⟨labelText addr.toNat, some ⟨a, .row addr⟩⟩] sheet' := by
  obtain ⟨t, ht, hadds⟩ := adds_add h
  obtain rfl : t = labelText addr.toNat := Option.some.inj (ht.symm.trans (vsnprintf_label addr))
  exact hadds

theorem adds_showByte {i : BitVec 32} (h : showByte a content old i j sheet = some sheet') :
    ∃ t, Adds sheet [⟨t, some ⟨a, .byte i.toNat⟩⟩] sheet' := by
  unfold showByte at h
  simp only [Option.bind_eq_bind, Option.bind_eq_some_iff] at h
  obtain ⟨modified, -, sheet₁, hadd, hi, -, lo, -, hstore⟩ := h
  obtain ⟨t, -, hadds⟩ := adds_add hadd
  exact ⟨t, hadds.trans (adds_store hstore)⟩

theorem adds_endRow {more : Bool} (h : endRow junk a more addr j sheet = some sheet') :
    ∃ row t, Adds sheet (⟨t, some ⟨a, .ascii row⟩⟩ ::
      if more = true then [⟨labelText (addr + 1).toNat, some ⟨a, .row (addr + 1)⟩⟩] else []) sheet' := by
  unfold endRow at h
  obtain ⟨sheet₁, hflush, h⟩ := Option.bind_eq_some_iff.mp h
  obtain ⟨row, t, hadds⟩ := adds_flush hflush
  refine ⟨row, t, ?_⟩
  cases more with
  | true => exact hadds.trans (adds_showAddr h)
  | false =>
      cases h
      exact hadds

/-! ## The rows -/

/-- What is neither a byte nor a header. -/
def Plain (a : Nat) (p : Piece Char Mark) : Prop :=
  ∃ part, p.shows = some ⟨a, part⟩ ∧ part ≠ .header ∧ ∀ i, part ≠ .byte i

/-- A piece of a segment other than its header. -/
def Below (a : Nat) (p : Piece Char Mark) : Prop := ∃ part, p.shows = some ⟨a, part⟩ ∧ part ≠ .header

theorem Plain.below {p : Piece Char Mark} (h : Plain a p) : Below a p := by
  obtain ⟨part, hpart, hheader, -⟩ := h
  exact ⟨part, hpart, hheader⟩

/-- No byte is placed among other pieces. -/
theorem placed_plain {label : CStr} {col : Nat} (h : ∀ p ∈ ps, Plain a p) : placed label col ps = [] := by
  induction ps generalizing label col with
  | nil => rfl
  | cons p ps ih =>
      obtain ⟨hp, hps⟩ := List.forall_mem_cons.mp h
      obtain ⟨part, hpart, -, hbyte⟩ := hp
      obtain ⟨t, shows⟩ := p
      obtain rfl : shows = some ⟨a, part⟩ := hpart
      cases part with
      | byte i => exact absurd rfl (hbyte i)
      | _ => exact ih hps

/-- Pads are columns. -/
theorem placed_pads {label : CStr} {col : Nat} (n : Nat) (ps : List (Piece Char Mark)) :
    placed label col (List.replicate n ⟨"??".toList, some ⟨a, .pad⟩⟩ ++ ps) = placed label (col + n) ps := by
  induction n generalizing col with
  | zero => rfl
  | succ n ih =>
      rw [List.replicate_succ, List.cons_append]
      refine (@ih (col + 1)).trans ?_
      rw [Nat.add_right_comm col 1]
      rfl

/-- Of each byte from `i` on the label and the column lead to its address. -/
structure Leads (base i n : Nat) (es : List (Nat × CStr × Nat)) : Prop where
  bytes : es.map Prod.fst = List.range' i n
  rows : ∀ e ∈ es, ∃ x, e.2.1 = labelText x ∧ x + e.2.2 = base + e.1

theorem Leads.cons {base i : Nat} {es : List (Nat × CStr × Nat)} (h : Leads base (i + 1) n es) {x col : Nat}
    (hcol : x + col = base + i) : Leads base i (n + 1) ((i, labelText x, col) :: es) where
  bytes := by
    rw [List.map_cons, h.bytes, List.range'_succ]
  rows := by
    intro e he
    rcases List.mem_cons.mp he with rfl | he
    · exact ⟨x, rfl, hcol⟩
    · exact h.rows e he

/-- The loop over the bytes, from the column of one on. -/
theorem adds_showBytes (base : Nat) {i : BitVec 32} (hn : i.toNat + n = mem.length.toNat)
    (haddr : addr.toNat = base + i.toNat) (hroom : base + mem.length.toNat < 2 ^ 64)
    (h : showBytes junk a mem content old n i addr j sheet = some (addr', j', sheet')) :
    ∃ ps, Adds sheet ps sheet' ∧ (∀ p ∈ ps, Below a p) ∧
      ∀ x col tail, (0 < n → x + col = addr.toNat) → (∀ p ∈ tail, Plain a p) →
        Leads base i.toNat n (placed (labelText x) col (ps ++ tail)) := by
  induction n generalizing i addr j sheet with
  | zero =>
      cases h
      refine ⟨[], adds_refl _, nofun, fun x col tail _ htail => ?_⟩
      rw [List.nil_append, placed_plain htail]
      exact ⟨rfl, nofun⟩
  | succ n ih =>
      unfold showBytes at h
      simp only [Option.bind_eq_bind, Option.bind_eq_some_iff] at h
      obtain ⟨sheet₁, hbyte, h⟩ := h
      obtain ⟨t, hadds⟩ := adds_showByte hbyte
      have hlt := mem.length.isLt
      have hsucc : (i + 1).toNat = i.toNat + 1 := by
        rw [BitVec.toNat_add]
        show (i.toNat + 1) % 2 ^ 32 = _
        omega
      have hnext : (addr + 1).toNat = addr.toNat + 1 := by
        rw [BitVec.toNat_add]
        show (addr.toNat + 1) % 2 ^ 64 = _
        omega
      split at h
      · obtain ⟨sheet₂, hend, hrest⟩ := Option.bind_eq_some_iff.mp h
        obtain ⟨row, t', hends⟩ := adds_endRow hend
        obtain ⟨ps, hps, hbelow, hleads⟩ := ih (by omega) (by omega) hrest
        refine ⟨_, hadds.trans (hends.trans hps), ?_, fun x col tail hcol htail => ?_⟩
        · intro p hp
          simp only [List.mem_append, List.mem_cons, List.not_mem_nil, or_false] at hp
          obtain rfl | (rfl | hp) | hp := hp
          · exact ⟨_, rfl, Part.noConfusion⟩
          · exact ⟨_, rfl, Part.noConfusion⟩
          · split at hp
            · obtain rfl := List.mem_singleton.mp hp
              exact ⟨_, rfl, Part.noConfusion⟩
            · exact absurd hp List.not_mem_nil
          · exact hbelow p hp
        · have hcol' : x + col = base + i.toNat := (hcol (Nat.succ_pos n)).trans haddr
          rw [hsucc] at hleads
          by_cases hmore : i + 1 < mem.length
          · rw [if_pos (decide_eq_true hmore)]
            exact (hleads (addr + 1).toNat 0 tail (fun _ => Nat.add_zero _) htail).cons hcol'
          · -- it was the last byte, and no other row follows
            have hlast : n = 0 := by
              rw [BitVec.lt_def] at hmore
              omega
            rw [if_neg (by rw [decide_eq_true_iff]; exact hmore)]
            exact (hleads x (col + 1) tail (by omega) htail).cons hcol'
      · obtain ⟨ps, hps, hbelow, hleads⟩ := ih (by omega) (by omega) h
        refine ⟨_, hadds.trans hps, ?_, fun x col tail hcol htail => ?_⟩
        · intro p hp
          rcases List.mem_append.mp hp with hp | hp
          · obtain rfl := List.mem_singleton.mp hp
            exact ⟨_, rfl, Part.noConfusion⟩
          · exact hbelow p hp
        · have hcol' := hcol (Nat.succ_pos n)
          rw [hsucc] at hleads
          exact (hleads x (col + 1) tail (by omega) htail).cons (hcol'.trans haddr)

/-- From the aligned address in front of one, up to it. -/
theorem align_add_gap (hlow : addr.toNat < 2 ^ 63) (alignment : BitVec 32) :
    (align addr alignment).toNat + gap (align addr alignment) addr = addr.toNat := by
  have hle : (align addr alignment).toNat ≤ addr.toNat := by
    unfold align
    rw [BitVec.toNat_and]
    exact Nat.and_le_left
  have hslt : (align addr alignment).slt addr = true ↔ (align addr alignment).toNat < addr.toNat := by
    rw [BitVec.slt_iff_toInt_lt, BitVec.toInt_eq_toNat_cond, BitVec.toInt_eq_toNat_cond]
    split_ifs <;> omega
  unfold gap
  split
  · rw [BitVec.toNat_sub]
    omega
  · next h =>
    have hge := mt hslt.mpr h
    omega

theorem adds_blankLine (h : blankLine a sheet = some sheet') :
    ∃ t, Adds sheet [⟨t, some ⟨a, .blank⟩⟩] sheet' := by
  obtain ⟨sheet₁, hadd, rfl⟩ := Option.map_eq_some_iff.mp h
  obtain ⟨t, -, hadds⟩ := adds_add hadd
  exact ⟨t, hadds⟩

theorem adds_showRows (hlow : addr.toNat < 2 ^ 63)
    (h : showRows junk a mem addr content old sheet = some sheet') :
    ∃ ps, Adds sheet ps sheet' ∧ (∀ p ∈ ps, Below a p) ∧
      ∀ label col, Leads addr.toNat 0 mem.length.toNat (placed label col ps) := by
  unfold showRows at h
  simp only [Option.bind_eq_bind, Option.bind_eq_some_iff] at h
  obtain ⟨sheet₁, haddr, ⟨j₁, sheet₂⟩, hfill, ⟨addr₂, j₂, sheet₃⟩, hbytes, ⟨j₃, sheet₄⟩, hpad, sheet₅,
    hflush, h⟩ := h
  dsimp only at hfill hbytes hpad hflush h
  have hlt := mem.length.isLt
  obtain ⟨ps, hps, hbelow, hleads⟩ := adds_showBytes addr.toNat
    (by show 0 % 2 ^ 32 + _ = _; omega) (by show _ = _ + 0 % 2 ^ 32; omega) (by omega) hbytes
  obtain ⟨row, t, hrow⟩ := adds_flush hflush
  obtain ⟨blank, hplain, hblank⟩ : ∃ qs, (∀ p ∈ qs, Plain a p) ∧ Adds sheet₅ qs sheet' := by
    split at h
    · obtain ⟨t', hadds⟩ := adds_blankLine h
      refine ⟨_, ?_, hadds⟩
      intro p hp
      obtain rfl := List.mem_singleton.mp hp
      exact ⟨_, rfl, nofun, nofun⟩
    · cases h
      exact ⟨[], nofun, adds_refl _⟩
  have htail : ∀ p ∈ List.replicate (if align addr₂ mem.alignment ≠ addr₂ then
      gap addr₂ (align (addr₂ + mem.alignment.zeroExtend 64) mem.alignment) else 0)
        ⟨"??".toList, some ⟨a, .pad⟩⟩ ++ (⟨t, some ⟨a, .ascii row⟩⟩ :: blank), Plain a p := by
    intro p hp
    rcases List.mem_append.mp hp with hp | hp
    · obtain rfl := List.eq_of_mem_replicate hp
      exact ⟨_, rfl, nofun, nofun⟩
    · rcases List.mem_cons.mp hp with rfl | hp
      · exact ⟨_, rfl, nofun, nofun⟩
      · exact hplain p hp
  have hall := (adds_showAddr haddr).trans ((adds_fill hfill).trans
    (hps.trans ((adds_fill hpad).trans (hrow.trans hblank))))
  refine ⟨_, hall, ?_, fun label col => ?_⟩
  · intro p hp
    rcases List.mem_append.mp hp with hp | hp
    · obtain rfl := List.mem_singleton.mp hp
      exact ⟨_, rfl, nofun⟩
    · rcases List.mem_append.mp hp with hp | hp
      · obtain rfl := List.eq_of_mem_replicate hp
        exact ⟨_, rfl, nofun⟩
      · rcases List.mem_append.mp hp with hp | hp
        · exact hbelow p hp
        · exact (htail p hp).below
  · have hcol := align_add_gap hlow mem.alignment
    have hrows := hleads (align addr mem.alignment).toNat (0 + gap (align addr mem.alignment) addr) _
      (fun _ => by omega) htail
    rw [← placed_pads] at hrows
    exact hrows

/-! ## Segments -/

theorem plain_showColumns {i : BitVec 32} (h : showColumns a n i sheet = some sheet') :
    ∃ ps, Adds sheet ps sheet' ∧ ∀ p ∈ ps, Plain a p := by
  induction n generalizing i sheet with
  | zero =>
      cases h
      exact ⟨[], adds_refl _, nofun⟩
  | succ n ih =>
      unfold showColumns at h
      obtain ⟨sheet₁, hadd, hrest⟩ := Option.bind_eq_some_iff.mp h
      obtain ⟨t, -, hadds⟩ := adds_add hadd
      obtain ⟨ps, hps, hplain⟩ := ih hrest
      refine ⟨_, hadds.trans hps, List.forall_mem_cons.mpr
        ⟨⟨_, rfl, Part.noConfusion, fun _ => Part.noConfusion⟩, hplain⟩⟩

theorem plain_showRuler {alignment : BitVec 32} (h : showRuler a alignment sheet = some sheet') :
    ∃ ps, Adds sheet ps sheet' ∧ ∀ p ∈ ps, Plain a p := by
  unfold showRuler at h
  simp only [Option.bind_eq_bind, Option.bind_eq_some_iff] at h
  obtain ⟨sheet₁, hadd, sheet₂, hcolumns, h⟩ := h
  obtain ⟨sheet₃, hadd', rfl⟩ := Option.map_eq_some_iff.mp h
  obtain ⟨t, -, hadds⟩ := adds_add hadd
  obtain ⟨ps, hps, hplain⟩ := plain_showColumns hcolumns
  obtain ⟨t', -, hadds'⟩ := adds_add hadd'
  refine ⟨_, hadds.trans (hps.trans hadds'), ?_⟩
  intro p hp
  rcases List.mem_append.mp hp with hp | hp
  · obtain rfl := List.mem_singleton.mp hp
    exact ⟨_, rfl, nofun, nofun⟩
  · rcases List.mem_append.mp hp with hp | hp
    · exact hplain p hp
    · obtain rfl := List.mem_singleton.mp hp
      exact ⟨_, rfl, nofun, nofun⟩

theorem adds_showHeader (h : showHeader a mem addr sheet = some sheet') :
    Adds sheet [⟨headerText mem addr.toNat, some ⟨a, .header⟩⟩] sheet' := by
  unfold showHeader at h
  obtain ⟨sheet₁, hadd, heq⟩ := Option.bind_eq_some_iff.mp h
  cases heq
  obtain ⟨t, ht, hadds⟩ := adds_add hadd
  obtain rfl : t = headerText mem addr.toNat :=
    Option.some.inj (ht.symm.trans (vsnprintf_memory mem.expanded addr mem.length))
  exact hadds

/-- Bytes behind plain pieces are placed as they are behind some row and column. -/
theorem exists_placed {label : CStr} {col : Nat} (h : ∀ p ∈ ps, Plain a p) (qs : List (Piece Char Mark)) :
    ∃ label' col', placed label col (ps ++ qs) = placed label' col' qs := by
  induction ps generalizing label col with
  | nil => exact ⟨label, col, rfl⟩
  | cons p ps ih =>
      obtain ⟨hp, hps⟩ := List.forall_mem_cons.mp h
      obtain ⟨part, hpart, -, hbyte⟩ := hp
      obtain ⟨t, shows⟩ := p
      obtain rfl : shows = some ⟨a, part⟩ := hpart
      cases part with
      | byte i => exact absurd rfl (hbyte i)
      | _ => exact ih hps

/-- A segment is labelled with its address. -/
theorem labelled_showSegment (hlow : addr.toNat < 2 ^ 63)
    (h : showSegment junk a mem addr content old sheet = some sheet') :
    ∃ ps, Adds sheet ps sheet' ∧ (∀ p ∈ ps, ∃ part, p.shows = some ⟨a, part⟩) ∧
      Labelled mem addr.toNat ps := by
  unfold showSegment at h
  obtain ⟨sheet₁, hheader, h⟩ := Option.bind_eq_some_iff.mp h
  have hhead := adds_showHeader hheader
  obtain ⟨ps, hps, hbelow, hbytes, hrows⟩ : ∃ ps, Adds sheet₁ ps sheet' ∧ (∀ p ∈ ps, Below a p) ∧
      (mem.expanded = true → (placed [] 0 ps).map Prod.fst = List.range mem.length.toNat) ∧
      ∀ e ∈ placed [] 0 ps, ∃ x, e.2.1 = labelText x ∧ x + e.2.2 = addr.toNat + e.1 := by
    split at h
    · obtain ⟨sheet₂, hruler, hrows⟩ := Option.bind_eq_some_iff.mp h
      obtain ⟨ruler, hadds, hplain⟩ := plain_showRuler hruler
      obtain ⟨rows, hadds', hbelow, hleads⟩ := adds_showRows hlow hrows
      obtain ⟨label, col, hplaced⟩ := @exists_placed _ _ [] 0 hplain rows
      refine ⟨_, hadds.trans hadds', ?_, fun _ => ?_, ?_⟩
      · intro p hp
        rcases List.mem_append.mp hp with hp | hp
        · exact (hplain p hp).below
        · exact hbelow p hp
      · rw [hplaced, (hleads label col).bytes, List.range_eq_range']
      · rw [hplaced]
        exact (hleads label col).rows
    · next hfolded =>
      obtain ⟨t, hadds⟩ := adds_blankLine h
      refine ⟨_, hadds, ?_, fun h => absurd h hfolded, nofun⟩
      intro p hp
      obtain rfl := List.mem_singleton.mp hp
      exact ⟨_, rfl, nofun⟩
  refine ⟨_, hhead.trans hps, ?_, ?_, hbytes, hrows⟩
  · intro p hp
    rcases List.mem_cons.mp hp with rfl | hp
    · exact ⟨_, rfl⟩
    · obtain ⟨part, hpart, -⟩ := hbelow p hp
      exact ⟨part, hpart⟩
  · rw [List.singleton_append, List.filter_cons_of_pos rfl, List.filter_eq_nil_iff.mpr]
    · rfl
    · intro p hp hshows
      obtain ⟨part, hpart, hne⟩ := hbelow p hp
      rw [hpart] at hshows
      exact hne (Option.some.inj (of_decide_eq_true hshows))

/-! ## The update -/

/-- The pieces of a segment. -/
def ofSegment (a : Nat) (ps : List (Piece Char Mark)) : List (Piece Char Mark) :=
  ps.filter fun p => p.shows.map Mark.seg = some a

theorem ofSegment_self {a : Nat} (h : ∀ p ∈ ps, p.shows.map Mark.seg = some a) : ofSegment a ps = ps :=
  List.filter_eq_self.mpr fun p hp => decide_eq_true (h p hp)

theorem ofSegment_other {a : Nat} (h : ∀ p ∈ ps, p.shows.map Mark.seg ≠ some a) : ofSegment a ps = [] :=
  List.filter_eq_nil_iff.mpr fun p hp hshows => h p hp (of_decide_eq_true hshows)

theorem ofSegment_append (a : Nat) (ps qs : List (Piece Char Mark)) :
    ofSegment a (ps ++ qs) = ofSegment a ps ++ ofSegment a qs := List.filter_append _ _

/-- The segment has been acquired with an address. -/
def Addressed (mem : Segment) : Prop := ∃ begin, mem.begin = some begin ∧ IsAddr begin

/-- What a segment is labelled with. -/
def shownAddress (begin : CStr) : Nat := min (addrValue begin) (2 ^ 63 - 1)

theorem toNat_strtollHex_addr {begin : CStr} (h : IsAddr begin) :
    (strtollHex begin).toNat = shownAddress begin := by
  rw [Gdb.strtollHex_addr h, BitVec.toNat_ofNat]
  unfold shownAddress
  omega

/-- All segments are labelled. -/
theorem labelled_showSegments {replies : Nat → Option CStr} {i : Nat} {mems : List (Nat × Segment)}
    {contents contents' : Nat → Contents} (haddressed : ∀ e ∈ mems, Addressed e.2)
    (hnodup : (mems.map Prod.fst).Nodup)
    (h : showSegments junk replies i mems contents sheet = some (contents', sheet', true)) :
    ∃ ps, Adds sheet ps sheet' ∧ (∀ p ∈ ps, ∃ e ∈ mems, p.shows.map Mark.seg = some e.1) ∧
      ∀ e ∈ mems, ∀ begin, e.2.begin = some begin →
        Labelled e.2 (shownAddress begin) (ofSegment e.1 ps) := by
  induction mems generalizing i contents sheet with
  | nil =>
      cases h
      exact ⟨[], adds_refl _, nofun, nofun⟩
  | cons e mems ih =>
      obtain ⟨a, mem⟩ := e
      obtain ⟨haddr, hrest⟩ := List.forall_mem_cons.mp haddressed
      obtain ⟨begin, hbegin, hisAddr⟩ := haddr
      rw [List.map_cons, List.nodup_cons] at hnodup
      obtain ⟨hfresh, hnodup⟩ := hnodup
      dsimp only at hbegin hfresh
      unfold showSegments at h
      rw [hbegin] at h
      cases hreply : replies i with
      | none =>
          rw [hreply] at h
          cases h
      | some content =>
          rw [hreply] at h
          obtain ⟨sheet₁, hsegment, hsegments⟩ := Option.bind_eq_some_iff.mp h
          have hlow : (strtollHex begin).toNat < 2 ^ 63 := by
            rw [toNat_strtollHex_addr hisAddr]
            unfold shownAddress
            omega
          obtain ⟨ps, hps, hseg, hlabelled⟩ := labelled_showSegment hlow hsegment
          obtain ⟨qs, hqs, hmems, hall⟩ := ih hrest hnodup hsegments
          have hseg' : ∀ p ∈ ps, p.shows.map Mark.seg = some a := by
            intro p hp
            obtain ⟨part, hpart⟩ := hseg p hp
            rw [hpart]
            rfl
          refine ⟨_, hps.trans hqs, ?_, ?_⟩
          · intro p hp
            rcases List.mem_append.mp hp with hp | hp
            · exact ⟨(a, mem), List.mem_cons_self, hseg' p hp⟩
            · obtain ⟨e, he, hshows⟩ := hmems p hp
              exact ⟨e, List.mem_cons_of_mem _ he, hshows⟩
          · intro e he begin' hbegin'
            rw [ofSegment_append]
            rcases List.mem_cons.mp he with rfl | he
            · obtain rfl : begin = begin' := Option.some.inj (hbegin.symm.trans hbegin')
              rw [ofSegment_self hseg', ofSegment_other, List.append_nil, ← toNat_strtollHex_addr hisAddr]
              · exact hlabelled
              · intro p hp hshows
                obtain ⟨e, he, hseg⟩ := hmems p hp
                rw [hseg] at hshows
                exact hfresh (List.mem_map.mpr ⟨e, he, Option.some.inj hshows⟩)
            · rw [ofSegment_other, List.nil_append]
              · exact hall e he begin' hbegin'
              · intro p hp hshows
                rw [hseg' p hp] at hshows
                exact hfresh (List.mem_map.mpr ⟨e, he, (Option.some.inj hshows).symm⟩)

/-- Whenever the update shows the segments, that of the record is labelled with the address of the record. -/
def TrueLabels (r : Reply) : Prop :=
  ∀ (junk : Char) (replies : Nat → Option CStr) (s t : State) (sheet : Sheet),
    (∀ e ∈ s.memLst, Addressed e.2) → (s.memLst.map Prod.fst).Nodup →
    exec (updateText junk true replies) s = some (.ok (some sheet), t) →
    ∀ e ∈ s.memLst, e.2.begin = some r.begin →
      Labelled e.2 (addrValue r.begin) (ofSegment e.1 sheet.obuf.pieces)

theorem labelled_updateText {replies : Nat → Option CStr} {s t : State}
    (haddressed : ∀ e ∈ s.memLst, Addressed e.2) (hnodup : (s.memLst.map Prod.fst).Nodup)
    (h : exec (updateText junk true replies) s = some (.ok (some sheet), t)) {e : Nat × Segment}
    (he : e ∈ s.memLst) {begin : CStr} (hbegin : e.2.begin = some begin) :
    Labelled e.2 (shownAddress begin) (ofSegment e.1 sheet.obuf.pieces) := by
  unfold updateText at h
  rw [if_pos rfl, exec_get_bind] at h
  cases hshow : showSegments junk replies 0 s.memLst s.contents { asciib := s.asciib } with
  | none =>
      rw [hshow] at h
      cases h
  | some shown =>
      obtain ⟨contents, sheet', ok⟩ := shown
      rw [hshow] at h
      cases ok with
      | false => cases h
      | true =>
          cases h
          obtain ⟨ps, hps, -, hlabelled⟩ := labelled_showSegments haddressed hnodup hshow
          have hpieces : sheet.obuf.pieces = ps := hps
          rw [hpieces]
          exact hlabelled e he begin hbegin

/-! ## The addresses that are shown -/

theorem addrValue_addrDigits (x : Nat) : addrValue (addrDigits x) = x := by
  by_cases hzero : x = 0
  · subst hzero
    decide
  · obtain ⟨n, hdigits⟩ : ∃ n, addrDigits x = '0' :: 'x' :: (List.replicate n '0' ++ Nat.toDigits 16 x) := by
      have hmarker : (if addrSpec.alternate ∧ x ≠ 0 then ['0', 'x'] else []) = ['0', 'x'] :=
        if_pos ⟨rfl, hzero⟩
      have hnone : List.replicate (0 - (addrSpec.digits 16 x).length) '0' ++ addrSpec.digits 16 x =
          Nat.toDigits 16 x := by
        rw [Nat.zero_sub]
        rfl
      have hnumber : addrDigits x = addrSpec.fill ['0', 'x'] (Nat.toDigits 16 x) true := by
        rw [← hnone, ← hmarker]
        rfl
      exact ⟨_, hnumber⟩
    rw [hdigits]
    show readDigits 16 0 (List.replicate n '0' ++ Nat.toDigits 16 x) = x
    rw [readDigits_zeros, (readDigits_toDigits (by decide) (by decide) x).2]

theorem addrDigits_inj {x y : Nat} (h : addrDigits x = addrDigits y) : x = y := by
  rw [← addrValue_addrDigits x, h, addrValue_addrDigits]

theorem headerText_inj {x y : Nat} (h : headerText mem x = headerText mem y) : x = y := by
  unfold headerText at h
  have hdigits := List.append_cancel_right (List.append_cancel_right (List.append_cancel_right h))
  exact addrDigits_inj (List.append_cancel_left hdigits)

/-- A folded segment of the record, in a list of its own. -/
def foldedState (r : Reply) : State where
  memLst := [(0, ⟨some r.begin, 0, 8, false⟩)]
  asciib := ⟨List.replicate 17 ' ', 17⟩

/-- Nothing but the header depends on a folded segment. -/
theorem showSegment_folded (begin : Option CStr) (length alignment : BitVec 32) :
    showSegment junk a ⟨begin, length, alignment, false⟩ addr content old sheet =
      (showHeader a ⟨none, length, alignment, false⟩ addr sheet).bind (blankLine a) := rfl

/-- It is shown, at the end of the lower half. -/
theorem exec_foldedState {r : Reply} (h : strtollHex r.begin = 0x7fffffffffffffff) :
    ∃ sheet t, exec (updateText ' ' true fun _ => some []) (foldedState r) = some (.ok (some sheet), t) := by
  have hshown : ((showHeader 0 ⟨none, 0, 8, false⟩ 0x7fffffffffffffff
      { asciib := ⟨List.replicate 17 ' ', 17⟩ }).bind (blankLine 0)).isSome := by
    decide +kernel
  obtain ⟨sheet, hsheet⟩ := Option.isSome_iff_exists.mp hshown
  have hshow : showSegments ' ' (fun _ => some []) 0 (foldedState r).memLst (foldedState r).contents
      { asciib := (foldedState r).asciib } =
        some (Function.update (foldedState r).contents 0 (((foldedState r).contents 0).update []), sheet,
          true) := by
    have hbuffer : (foldedState r).asciib = ⟨List.replicate 17 ' ', 17⟩ := rfl
    show (showSegment ' ' 0 ⟨some r.begin, 0, 8, false⟩ (strtollHex r.begin) _ _ _).bind _ = _
    rw [h, showSegment_folded, hbuffer, hsheet]
    rfl
  unfold updateText
  rw [if_pos rfl, exec_get_bind]
  rw [hshow]
  exact ⟨sheet, _, rfl⟩

/-- The rows of a record are labelled with the true addresses if and only if it begins in the lower half. -/
theorem trueLabels_iff {r : Reply} (h : IsAddr r.begin) : TrueLabels r ↔ addrValue r.begin < 2 ^ 63 := by
  constructor
  · intro hlabels
    by_contra hhigh
    have hshown : shownAddress r.begin = 2 ^ 63 - 1 := Nat.min_eq_right (by omega)
    have hbegin : strtollHex r.begin = 0x7fffffffffffffff := by
      rw [← BitVec.toNat_inj, toNat_strtollHex_addr h, hshown]
      rfl
    obtain ⟨sheet, t, hexec⟩ := exec_foldedState hbegin
    have haddressed : ∀ e ∈ (foldedState r).memLst, Addressed e.2 := by
      intro e he
      obtain rfl := List.mem_singleton.mp he
      exact ⟨r.begin, rfl, h⟩
    have hnodup : ((foldedState r).memLst.map Prod.fst).Nodup := List.nodup_singleton 0
    have htrue := (hlabels ' ' _ _ t sheet haddressed hnodup hexec _ List.mem_cons_self rfl).header
    have hfalse := (labelled_updateText haddressed hnodup hexec List.mem_cons_self rfl).header
    rw [hfalse, hshown, List.cons.injEq] at htrue
    have hsame := headerText_inj htrue.1
    omega
  · intro hlow junk replies s t sheet haddressed hnodup hexec e he hbegin
    have hlabelled := labelled_updateText haddressed hnodup hexec he hbegin
    have hshown : shownAddress r.begin = addrValue r.begin := Nat.min_eq_left (by omega)
    rwa [hshown] at hlabelled

/-! ## Records -/

/-- A record with two addresses of 64 bits. -/
structure Addresses (r : Reply) : Prop where
  begin : IsAddr r.begin
  end_ : IsAddr r.end_
  le : addrValue r.begin ≤ addrValue r.end_
  lt : addrValue r.end_ < 2 ^ 64

/-- The parser stores the length of the record. -/
def TrueLength (r : Reply) (offset : CStr) : Prop :=
  ∃ m, memoryBody (r.tokens offset) = .accepted (m, [.chr '}']) ∧
    m.length = BitVec.ofNat 32 (addrValue r.end_ - addrValue r.begin)

theorem trueLength_iff {r : Reply} (h : Addresses r) (hlow : addrValue r.begin < 2 ^ 63) (offset : CStr) :
    TrueLength r offset ↔
      addrValue r.end_ < 2 ^ 63 ∨ (addrValue r.end_ - (2 ^ 63 - 1)) % 2 ^ 32 = 0 := by
  have hle := h.le
  have hlt := h.lt
  have hlength : r.memory.length.toNat =
      (min (addrValue r.end_) (2 ^ 63 - 1) - addrValue r.begin) % 2 ^ 32 := by
    show ((strtollHex r.end_ - strtollHex r.begin).truncate 32).toNat = _
    rw [Gdb.strtollHex_addr h.begin, Gdb.strtollHex_addr h.end_, BitVec.truncate_eq_setWidth,
      BitVec.toNat_setWidth, BitVec.toNat_sub, BitVec.toNat_ofNat, BitVec.toNat_ofNat]
    omega
  have hstored : TrueLength r offset ↔
      r.memory.length = BitVec.ofNat 32 (addrValue r.end_ - addrValue r.begin) := by
    unfold TrueLength
    rw [Gdb.memoryBody_tokens]
    constructor
    · rintro ⟨m, hm, heq⟩
      cases hm
      exact heq
    · exact fun heq => ⟨_, rfl, heq⟩
  rw [hstored, ← BitVec.toNat_inj, hlength, BitVec.toNat_ofNat]
  omega

/-- Exactly these records get their length, and their rows the true addresses; so do exactly the frames
below the middle of the addresses. -/
theorem lengthened_iff {r : Reply} (h : Addresses r) (offset : CStr) :
    (TrueLength r offset ∧ TrueLabels r ↔
      addrValue r.begin < 2 ^ 63 ∧
        (addrValue r.end_ < 2 ^ 63 ∨ (addrValue r.end_ - (2 ^ 63 - 1)) % 2 ^ 32 = 0)) ∧
    ∀ (pre post : List FrameField) (s : CStr) (rest : List Gdb.Tok), (∀ t, FrameField.addr t ∉ post) →
      IsAddr s → addrValue s < 2 ^ 64 →
        ((∃ f, frameBody (frameTokens (pre ++ .addr s :: post) ++ .chr '}' :: rest) =
            .accepted (f, .chr '}' :: rest) ∧ f.addr = BitVec.ofNat 64 (addrValue s)) ↔
          addrValue s < 2 ^ 63) := by
  refine ⟨?_, fun pre post s rest hpost hs hlt => Gdb.frame_addr_iff hpost hs hlt rest⟩
  rw [trueLabels_iff h.begin, and_comm]
  exact and_congr_right fun hlow => trueLength_iff h hlow offset

def lowReply : Reply := ⟨"0x7fffffff0000".toList, "0x7fffffff0010".toList, []⟩

def highReply : Reply := ⟨"0xffff888000000000".toList, "0xffff888000000010".toList, []⟩

/-- A segment of a user program. -/
theorem lowReply_shown : TrueLength lowReply [] ∧ TrueLabels lowReply := by
  refine (lengthened_iff ⟨⟨_, rfl⟩, ⟨_, rfl⟩, ?_, ?_⟩ []).1.mpr ?_ <;> decide +kernel

/-- A segment of a kernel is taken to be empty. -/
theorem highReply_not_stored : Addresses highReply ∧ ¬ (TrueLength highReply [] ∧ TrueLabels highReply) := by
  refine ⟨⟨⟨_, rfl⟩, ⟨_, rfl⟩, by decide +kernel, by decide +kernel⟩, ?_⟩
  rintro ⟨⟨m, hm, hlength⟩, -⟩
  rw [Gdb.memoryBody_tokens] at hm
  cases hm
  revert hlength
  decide +kernel

end Vimgdb.Memory.View
