import Vimgdb.Gui.Lines
import Vimgdb.Lib.Grouping

/-!
# The reader of vim's messages

`readline_thread` collects what the socket delivers and parses it as soon as it ends with a newline.
Here the buffer it collects in has no end; `Receive` is about the buffer.

* `recv`: one result of `recv`.
* `Delivers`: the results that end with those that lead to a call of the parser.
* `feed_of_cut`: the parser gets the lines in groups, which depend on where the results end.
* `Separate`: what the first line of a group that is not accepted on its own asks of the others.
* `calls_eq_iff`: a group makes the calls of its lines iff it is `Separate`.
-/

namespace Vimgdb.Vim

open Flex Lexing Grouping

/-! ## The reader -/

/-- A result of `recv`, behind what has been received of a line. -/
def recv (line r : CStr) : List Call × CStr :=
  if (line ++ r).getLast? = some '\n' then ((vimparse (line ++ r)).1, []) else ([], line ++ r)

/-- The calls for a sequence of results, and what has been received of a line then. -/
def feed (line : CStr) : List CStr → List Call × CStr
  | [] => ([], line)
  | r :: rs => ((recv line r).1 ++ (feed (recv line r).2 rs).1, (feed (recv line r).2 rs).2)

theorem feed_append (line : CStr) (rs rs' : List CStr) :
    feed line (rs ++ rs') =
      ((feed line rs).1 ++ (feed (feed line rs).2 rs').1, (feed (feed line rs).2 rs').2) := by
  induction rs generalizing line with
  | nil => rfl
  | cons r rs ih => rw [List.cons_append, feed, ih, feed, List.append_assoc]

/-! ## Lines -/

/-- A line without its newline. -/
structure RawLine where
  chars : CStr
  noNewline : '\n' ∉ chars

/-- A line with its newline. -/
def RawLine.text (l : RawLine) : CStr := l.chars ++ ['\n']

/-- The stream of newline-terminated lines. -/
def stream (lines : List RawLine) : CStr := lines.flatMap RawLine.text

@[simp] theorem stream_nil : stream [] = [] := rfl

@[simp] theorem stream_cons (l : RawLine) (lines : List RawLine) :
    stream (l :: lines) = l.text ++ stream lines := rfl

@[simp] theorem stream_append (lines lines' : List RawLine) :
    stream (lines ++ lines') = stream lines ++ stream lines' := List.flatMap_append

@[simp] theorem getLast?_text (l : RawLine) : l.text.getLast? = some '\n' :=
  List.getLast?_concat

/-- A stream ends with a newline. -/
theorem stream_ends (lines : List RawLine) (h : lines ≠ []) :
    (stream lines).getLast? = some '\n' := by
  rw [← List.dropLast_concat_getLast h, stream_append, stream_cons, stream_nil, List.append_nil,
    List.getLast?_append, getLast?_text]
  rfl

/-- A part of the stream that ends with a newline consists of lines. -/
theorem stream_split {lines : List RawLine} {u v : CStr} (h : stream lines = u ++ v)
    (hu : u.getLast? = some '\n') :
    ∃ g g', lines = g ++ g' ∧ g ≠ [] ∧ u = stream g ∧ v = stream g' := by
  induction lines generalizing u with
  | nil =>
      have hnil := List.append_eq_nil_iff.mp h.symm
      rw [hnil.1] at hu
      cases hu
  | cons l lines ih =>
      rw [stream_cons] at h
      rcases List.append_eq_append_iff.mp h with ⟨w, rfl, hw⟩ | ⟨w, hw, hv⟩
      · by_cases hnil : w = []
        · subst hnil
          exact ⟨[l], lines, rfl, List.cons_ne_nil _ _, rfl, hw.symm⟩
        · rw [List.getLast?_append_of_ne_nil _ hnil] at hu
          obtain ⟨g, g', rfl, -, rfl, rfl⟩ := ih hw hu
          exact ⟨l :: g, g', rfl, List.cons_ne_nil _ _, rfl, rfl⟩
      · -- the line's newline is its last character, so nothing of it is left over
        rcases List.eq_nil_or_concat w with rfl | ⟨w, c, rfl⟩
        · rw [List.append_nil] at hw
          exact ⟨[l], lines, rfl, List.cons_ne_nil _ _, by rw [← hw]; simp, hv⟩
        · exfalso
          have hchars : l.chars = u ++ w := by
            have hlast := congrArg List.dropLast hw
            rwa [RawLine.text, List.dropLast_concat, List.concat_eq_append, ← List.append_assoc,
              List.dropLast_concat] at hlast
          apply l.noNewline
          rw [hchars]
          exact List.mem_append_left _ (List.mem_of_getLast? hu)

/-! ## Groups of lines -/

/-- The results of `recv` for a stream. -/
structure Cut (s : CStr) (rs : List CStr) : Prop where
  flatten : rs.flatten = s
  nonempty : ∀ r ∈ rs, r ≠ []

theorem Cut.append {s s' : CStr} {rs rs' : List CStr} (h : Cut s rs) (h' : Cut s' rs') :
    Cut (s ++ s') (rs ++ rs') := by
  constructor
  · rw [List.flatten_append, h.flatten, h'.flatten]
  · intro r hr
    rcases List.mem_append.mp hr with hr | hr
    · exact h.nonempty r hr
    · exact h'.nonempty r hr

/-- The calls for lines that are parsed together. -/
def calls (lines : List RawLine) : List Call := (vimparse (stream lines)).1

/-- The results for the lines `g`, of which only the last ends with a newline: the parser gets these
lines together. -/
structure Delivers (rs : List CStr) (g : List RawLine) : Prop extends Cut (stream g) rs where
  ne : g ≠ []
  inside : ∀ r ∈ rs.dropLast, r.getLast? ≠ some '\n'

/-- Results that end inside a line are collected. -/
theorem feed_inside {line : CStr} {rs : List CStr} (hne : ∀ r ∈ rs, r ≠ [])
    (hin : ∀ r ∈ rs, r.getLast? ≠ some '\n') : feed line rs = ([], line ++ rs.flatten) := by
  induction rs generalizing line with
  | nil => rw [feed, List.flatten_nil, List.append_nil]
  | cons r rs ih =>
      rw [List.forall_mem_cons] at hne hin
      have hlast : (line ++ r).getLast? ≠ some '\n' := by
        rw [List.getLast?_append_of_ne_nil _ hne.1]
        exact hin.1
      rw [feed, recv, if_neg hlast, ih hne.2 hin.2, List.flatten_cons, List.append_assoc]
      rfl

/-- The parser gets the lines together. -/
theorem Delivers.feed {rs : List CStr} {g : List RawLine} (h : Delivers rs g) :
    Vim.feed [] rs = (calls g, []) := by
  have hflatten := h.flatten
  have hrs : rs ≠ [] := by
    rintro rfl
    have hends := stream_ends g h.ne
    rw [← hflatten] at hends
    cases hends
  have hsplit := List.dropLast_concat_getLast hrs
  have hfront : ∀ r ∈ rs.dropLast, r ≠ [] := fun r hr => h.nonempty r (List.dropLast_subset _ hr)
  have htext : rs.dropLast.flatten ++ rs.getLast hrs = stream g := by
    rw [← hflatten]
    conv_rhs => rw [← hsplit]
    rw [List.flatten_append, List.flatten_singleton]
  have hends := stream_ends g h.ne
  have hrecv : recv rs.dropLast.flatten (rs.getLast hrs) = (calls g, []) := by
    rw [recv, htext, if_pos hends, calls]
  rw [← hsplit, feed_append, feed_inside hfront h.inside, List.nil_append]
  simp [Vim.feed, hrecv]

/-- The parser gets the lines of a stream in groups. -/
theorem feed_of_cut {lines : List RawLine} {rs : List CStr} (h : Cut (stream lines) rs) :
    ∃ bs gs, List.Forall₂ Delivers bs gs ∧ Groups lines gs ∧ rs = bs.flatten := by
  -- `rs` holds what comes behind the results `fs`, which end inside the first line of a group
  have hgen : ∀ rs fs : List CStr, ∀ lines, Cut (stream lines) (fs ++ rs) →
      (∀ r ∈ fs, r.getLast? ≠ some '\n') →
      ∃ bs gs, List.Forall₂ Delivers bs gs ∧ Groups lines gs ∧ fs ++ rs = bs.flatten := by
    intro rs
    induction rs with
    | nil =>
        intro fs lines hcut hfs
        rw [List.append_nil] at hcut ⊢
        obtain rfl : lines = [] := by
          by_contra hne
          have hends := stream_ends lines hne
          rw [← hcut.flatten] at hends
          rcases List.eq_nil_or_concat fs with rfl | ⟨fs, r, rfl⟩
          · cases hends
          · have hr : r ∈ fs.concat r := by simp
            rw [List.concat_eq_append, List.flatten_append, List.flatten_singleton,
              List.getLast?_append_of_ne_nil _ (hcut.nonempty r hr)] at hends
            exact hfs r hr hends
        obtain rfl : fs = [] := by
          rcases fs with _ | ⟨r, fs⟩
          · rfl
          · have hnil := List.flatten_eq_nil_iff.mp hcut.flatten r List.mem_cons_self
            exact absurd hnil (hcut.nonempty r List.mem_cons_self)
        exact ⟨[], [], .nil, ⟨rfl, nofun⟩, rfl⟩
    | cons r rs ih =>
        intro fs lines hcut hfs
        rw [List.append_cons] at hcut ⊢
        by_cases hr : r.getLast? = some '\n'
        · have hmem : r ∈ fs ++ [r] ++ rs := by simp
          have hends : (fs ++ [r]).flatten.getLast? = some '\n' := by
            rw [List.flatten_append, List.flatten_singleton,
              List.getLast?_append_of_ne_nil _ (hcut.nonempty r hmem), hr]
          have hflatten := hcut.flatten
          rw [List.flatten_append] at hflatten
          obtain ⟨g, g', rfl, hg, hu, hv⟩ := stream_split hflatten.symm hends
          have hrest : Cut (stream g') ([] ++ rs) :=
            ⟨hv.symm ▸ rfl, fun q hq => hcut.nonempty q (List.mem_append_right _ hq)⟩
          obtain ⟨bs, gs, hdelivers, hgroups, heq⟩ := ih [] g' hrest nofun
          have hdeliver : Delivers (fs ++ [r]) g :=
            { flatten := hu
              nonempty := fun q hq => hcut.nonempty q (List.mem_append_left _ hq)
              ne := hg
              inside := by rwa [List.dropLast_concat] }
          refine ⟨(fs ++ [r]) :: bs, g :: gs, .cons hdeliver hdelivers, ⟨?_, ?_⟩, ?_⟩
          · rw [List.flatten_cons, hgroups.flatten]
          · rw [List.forall_mem_cons]
            exact ⟨hg, hgroups.nonempty⟩
          · rw [List.flatten_cons, ← heq, List.nil_append]
        · apply ih (fs ++ [r]) lines hcut
          intro q hq
          rcases List.mem_append.mp hq with hq | hq
          · exact hfs q hq
          · rwa [List.mem_singleton.mp hq]
  exact hgen rs [] lines h nofun

/-- The calls for groups of lines. -/
theorem feed_delivers {bs : List (List CStr)} {gs : List (List RawLine)}
    (h : List.Forall₂ Delivers bs gs) : feed [] bs.flatten = (gs.flatMap calls, []) := by
  induction h with
  | nil => rfl
  | cons hdelivers _ ih => rw [List.flatten_cons, feed_append, hdelivers.feed, ih, List.flatMap_cons]

/-- Only one line is delivered by results with newlines at their ends only. -/
theorem Delivers.single {rs : List CStr} {g : List RawLine} (h : Delivers rs g)
    (hends : ∀ r ∈ rs, '\n' ∉ r.dropLast) : ∃ l, g = [l] := by
  have hnl : '\n' ∉ (stream g).dropLast := by
    intro hmem
    rw [← h.flatten] at hmem
    obtain ⟨l, g', rfl⟩ := List.exists_cons_of_ne_nil h.ne
    rcases List.eq_nil_or_concat rs with rfl | ⟨front, r, rfl⟩
    · cases hmem
    · have hr : r ∈ front.concat r := by simp
      rw [List.concat_eq_append, List.flatten_append, List.flatten_singleton,
        List.dropLast_append_of_ne_nil (h.nonempty r hr), List.mem_append] at hmem
      rcases hmem with hmem | hmem
      · obtain ⟨q, hq, hin⟩ := List.mem_flatten.mp hmem
        have hq' : q ∈ front.concat r := by simp [hq]
        have hlast : q.getLast? ≠ some '\n' := h.inside q (by simpa using hq)
        rw [← List.dropLast_concat_getLast (h.nonempty q hq'), List.mem_append,
          List.mem_singleton] at hin
        rcases hin with hin | hin
        · exact hends q hq' hin
        · exact hlast (by rw [List.getLast?_eq_some_getLast (h.nonempty q hq'), hin])
      · exact hends r hr hmem
  obtain ⟨l, g', rfl⟩ := List.exists_cons_of_ne_nil h.ne
  refine ⟨l, ?_⟩
  by_contra hne
  have hg' : stream g' ≠ [] := by
    intro hnil
    have hg' : g' ≠ [] := fun hg' => hne (by rw [hg'])
    have hlast := stream_ends g' hg'
    rw [hnil] at hlast
    cases hlast
  apply hnl
  rw [stream_cons, List.dropLast_append_of_ne_nil hg', RawLine.text]
  simp

/-- Results with newlines at their ends only deliver the lines one by one. -/
theorem delivers_singles {lines : List RawLine} {rs : List CStr} (h : Cut (stream lines) rs)
    (hends : ∀ r ∈ rs, '\n' ∉ r.dropLast) :
    ∃ bs, List.Forall₂ Delivers bs (lines.map fun l => [l]) ∧ rs = bs.flatten := by
  obtain ⟨bs, gs, hdelivers, hgroups, rfl⟩ := feed_of_cut h
  refine ⟨bs, ?_, rfl⟩
  have hgs : gs = gs.flatten.map fun l => [l] := by
    clear h hgroups
    induction hdelivers with
    | nil => rfl
    | @cons b g bs gs hdeliver _ ih =>
        have hends' : ∀ r ∈ bs.flatten, '\n' ∉ r.dropLast := fun r hr =>
          hends r (by rw [List.flatten_cons]; exact List.mem_append_right _ hr)
        obtain ⟨l, rfl⟩ := hdeliver.single fun r hr =>
          hends r (by rw [List.flatten_cons]; exact List.mem_append_left _ hr)
        rw [List.flatten_cons, List.map_append, ← ih hends']
        rfl
  rwa [← hgroups.flatten, ← hgs]

/-! ## Rejected lines -/

/-- The line leaves a quoted string open, and holds neither a 0 byte nor the end of the input. -/
def RawLine.Open (l : RawLine) : Prop :=
  '\x00' ∉ l.chars ∧ .eof ∉ tokens l.text ∧ (lex rules (lexFrom l.text)).2.st ≠ .initial

/-- The line is accepted on its own: it holds neither a 0 byte nor the end of the input, it leaves no
quoted string open, and the parser does not reject it. -/
def RawLine.Good (l : RawLine) : Prop :=
  '\x00' ∉ l.chars ∧ .eof ∉ tokens l.text ∧ (lex rules (lexFrom l.text)).2.st = .initial ∧
    (vimparse l.text).2 = true

theorem RawLine.cString {l : RawLine} (h : '\x00' ∉ l.chars) : '\x00' ∉ l.text := by
  rw [RawLine.text, List.mem_append, not_or]
  exact ⟨h, by simp⟩

/-- The lines behind a good one are parsed as if they stood alone. -/
theorem calls_good {l : RawLine} (h : l.Good) (lines : List RawLine) :
    calls (l :: lines) = calls [l] ++ calls lines := by
  obtain ⟨hnul, heof, hst, haccepted⟩ := h
  have hlast := getLast?_tokens (getLast?_text l) hst
  unfold calls
  rw [stream_cons, vimparse_append (RawLine.cString hnul) heof hlast, stream_cons, stream_nil,
    List.append_nil, followedBy, if_pos haccepted]

/-- The lines behind one that is not accepted on its own are lost, unless it leaves a quoted string
open. -/
theorem calls_rejected {l : RawLine} (h : ¬ l.Good) (hopen : ¬ l.Open) (lines : List RawLine) :
    calls (l :: lines) = calls [l] := by
  unfold calls
  rw [stream_cons, stream_cons, stream_nil, List.append_nil]
  by_cases hnul : '\x00' ∈ l.chars
  · have htext : '\x00' ∈ l.text := List.mem_append_left _ hnul
    unfold vimparse
    rw [scanned_append_of_mem htext]
  by_cases heof : .eof ∈ tokens l.text
  · rw [vimparse_eof (getLast?_text l) (RawLine.cString hnul) heof]
  · have hst : (lex rules (lexFrom l.text)).2.st = .initial := by
      by_contra hne
      exact hopen ⟨hnul, heof, hne⟩
    have hlast := getLast?_tokens (getLast?_text l) hst
    have hrejected : ¬ (vimparse l.text).2 = true := fun haccepted => h ⟨hnul, heof, hst, haccepted⟩
    rw [vimparse_append (RawLine.cString hnul) heof hlast, followedBy, if_neg hrejected]

/-- What the first line of a group that is not accepted on its own asks of the lines behind it.  If it
leaves no quoted string open, none of them makes a call on its own; if it does, it and they make
together the calls they make one by one. -/
def Separate (g : List RawLine) : Prop :=
  ∀ pre l post, g = pre ++ l :: post → (∀ x ∈ pre, x.Good) → ¬ l.Good →
    (¬ l.Open → ∀ x ∈ post, calls [x] = []) ∧
      (l.Open → calls (l :: post) = (l :: post).flatMap fun x => calls [x])

@[simp] theorem calls_nil : calls [] = [] := by decide +kernel

/-- A group makes the calls of its lines iff it is separate. -/
theorem calls_eq_iff (g : List RawLine) :
    calls g = (g.flatMap fun x => calls [x]) ↔ Separate g := by
  induction g with
  | nil =>
      refine iff_of_true calls_nil ?_
      intro pre l post heq
      cases pre <;> cases heq
  | cons l g ih =>
      by_cases hl : l.Good
      · rw [calls_good hl, List.flatMap_cons, List.append_cancel_left_eq, ih]
        constructor
        · intro h pre x post heq hpre hx
          rcases pre with _ | ⟨y, pre⟩
          · obtain ⟨rfl, -⟩ := List.cons.inj heq
            exact absurd hl hx
          · obtain ⟨rfl, rfl⟩ := List.cons.inj heq
            exact h pre x post rfl (List.forall_mem_cons.mp hpre).2 hx
        · intro h pre x post heq hpre hx
          exact h (l :: pre) x post (by rw [heq]; rfl) (List.forall_mem_cons.mpr ⟨hl, hpre⟩) hx
      · have hsep : Separate (l :: g) ↔ (¬ l.Open → ∀ x ∈ g, calls [x] = []) ∧
            (l.Open → calls (l :: g) = (l :: g).flatMap fun x => calls [x]) := by
          constructor
          · intro h
            exact h [] l g rfl (List.forall_mem_nil _) hl
          · intro h pre x post heq hpre hx
            rcases pre with _ | ⟨y, pre⟩
            · obtain ⟨rfl, rfl⟩ := List.cons.inj heq
              exact h
            · obtain ⟨rfl, -⟩ := List.cons.inj heq
              exact absurd (List.forall_mem_cons.mp hpre).1 hl
        rw [hsep]
        by_cases hopen : l.Open
        · simp [hopen]
        · rw [calls_rejected hl hopen, List.flatMap_cons, List.self_eq_append_right,
            List.flatMap_eq_nil_iff]
          simp [hopen]

end Vimgdb.Vim
