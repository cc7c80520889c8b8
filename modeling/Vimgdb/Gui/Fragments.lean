import Vimgdb.Gui.Receive

/-!
# Fragments of a stream

What the way in which a stream of lines is cut into results of `recv` changes.

* `Fits.cut`: a result can be cut behind its newlines.
* `Comes`: groups in which the parser gets the lines, for results that leave room in the buffer.
* `fragments_agree_iff`: the results lead to the same calls iff every such group is `Separate`.
-/

namespace Vimgdb.Vim.Receive

open Grouping

variable {junk : Char} {k n : Nat}

/-! ## Cutting results -/

/-- With fewer bytes in the buffer the results leave room as well. -/
theorem Fits.mono {n' : Nat} {rs : List Result} (h : Fits k n rs) (hle : n' ≤ n) : Fits k n' rs := by
  induction rs generalizing k n n' with
  | nil => trivial
  | cons r rs ih =>
      cases r with
      | shutdown => trivial
      | error => exact h
      | data bytes =>
          obtain ⟨hfit, hrest⟩ := h
          refine ⟨by omega, ?_⟩
          split_ifs at hrest ⊢ with hnl
          · exact hrest
          · exact ih hrest (by omega)

/-- What comes last may be replaced where it leaves room. -/
theorem Fits.append {rs : List CStr} {ts ts' : List Result}
    (hts : ∀ k n, Fits k n ts → Fits k n ts') (h : Fits k n (rs.map .data ++ ts)) :
    Fits k n (rs.map .data ++ ts') := by
  induction rs generalizing k n with
  | nil => exact hts k n h
  | cons r rs ih =>
      obtain ⟨hfit, hrest⟩ := h
      refine ⟨hfit, ?_⟩
      split_ifs at hrest ⊢ with hnl
      · exact ih hrest
      · exact ih hrest

/-- A result can be cut behind its newlines. -/
theorem exists_cut {r : CStr} (hr : r ≠ []) :
    ∃ qs, Cut r qs ∧ (∀ q ∈ qs, '\n' ∉ q.dropLast) ∧
      ∀ k n rs, Fits k n (.data r :: rs) → Fits k n (qs.map .data ++ rs) := by
  induction hlen : r.length using Nat.strong_induction_on generalizing r with
  | h m ih =>
  subst hlen
  by_cases hnl : '\n' ∈ r.dropLast
  · obtain ⟨u, v, hsplit, hu⟩ := List.eq_append_cons_of_mem hnl
    -- `w` is what comes behind the first newline
    obtain ⟨w, hw, hwne, hlast⟩ : ∃ w, r = u ++ ['\n'] ++ w ∧ w ≠ [] ∧ w.getLast? = r.getLast? := by
      refine ⟨v ++ [r.getLast hr], ?_, by simp, ?_⟩
      · conv_lhs => rw [← List.dropLast_concat_getLast hr, hsplit]
        simp
      · rw [List.getLast?_concat, List.getLast?_eq_some_getLast hr]
    have hlen : r.length = u.length + 1 + w.length := by
      rw [hw, List.length_append, List.length_append, List.length_singleton]
    obtain ⟨qs, hcut, hends, hfits⟩ := ih w.length (by omega) hwne rfl
    refine ⟨(u ++ ['\n']) :: qs, ⟨?_, ?_⟩, ?_, ?_⟩
    · rw [List.flatten_cons, hcut.flatten, hw]
    · rw [List.forall_mem_cons]
      exact ⟨by simp, hcut.nonempty⟩
    · rw [List.forall_mem_cons, List.dropLast_concat]
      exact ⟨hu, hends⟩
    · rintro k n rs ⟨hfit, hrest⟩
      refine ⟨by rw [List.length_append, List.length_singleton]; omega, ?_⟩
      rw [if_pos List.getLast?_concat]
      refine hfits k 0 rs ⟨by omega, ?_⟩
      rw [hlast]
      split_ifs at hrest ⊢ with hend
      · exact hrest
      · exact hrest.mono (by omega)
  · exact ⟨[r], ⟨List.flatten_singleton, by simpa using hr⟩, by simpa using hnl, fun _ _ _ h => h⟩

/-- All results can be cut behind their newlines. -/
theorem exists_cut_all {rs : List CStr} (hrs : ∀ r ∈ rs, r ≠ []) :
    ∃ qs, Cut rs.flatten qs ∧ (∀ q ∈ qs, '\n' ∉ q.dropLast) ∧
      ∀ k n ts, Fits k n (rs.map .data ++ ts) → Fits k n (qs.map .data ++ ts) := by
  induction rs with
  | nil => exact ⟨[], ⟨rfl, nofun⟩, nofun, fun _ _ _ h => h⟩
  | cons r rs ih =>
      rw [List.forall_mem_cons] at hrs
      obtain ⟨qs, hcut, hends, hfits⟩ := exists_cut hrs.1
      obtain ⟨qs', hcut', hends', hfits'⟩ := ih hrs.2
      refine ⟨qs ++ qs', hcut.append hcut', ?_, fun k n ts h => ?_⟩
      · intro q hq
        rcases List.mem_append.mp hq with hq | hq
        · exact hends q hq
        · exact hends' q hq
      · rw [List.map_append, List.append_assoc]
        exact Fits.append (fun k n => hfits' k n ts) (hfits k n _ h)

/-! ## Groups -/

/-- Groups in which the parser gets the lines, for results that leave room. -/
def Comes (gs : List (List RawLine)) : Prop :=
  ∃ bs, List.Forall₂ Delivers bs gs ∧ Fits 0 0 (bs.flatten.map .data)

/-- The results for groups of lines are a way of cutting their stream. -/
theorem cut_of_delivers {lines : List RawLine} {bs : List (List CStr)} {gs : List (List RawLine)}
    (h : List.Forall₂ Delivers bs gs) (hgs : Groups lines gs) : Cut (stream lines) bs.flatten := by
  rw [← hgs.flatten]
  clear hgs
  induction h with
  | nil => exact ⟨rfl, nofun⟩
  | cons hdelivers _ ih =>
      rw [List.flatten_cons, List.flatten_cons, stream_append]
      exact hdelivers.toCut.append ih

/-- With some groups those come about in which one of them is cut into its lines. -/
theorem Comes.split (gs : List (List RawLine)) (g : List RawLine) (gs' : List (List RawLine))
    (h : Comes (gs ++ g :: gs')) : Comes (gs ++ (g.map fun l => [l]) ++ gs') := by
  obtain ⟨bs, hdelivers, hfits⟩ := h
  have hfront := List.forall₂_take_append _ _ _ hdelivers
  have hback := List.forall₂_drop_append _ _ _ hdelivers
  rw [← List.take_append_drop gs.length bs] at hfits
  generalize bs.take gs.length = front at hfront hfits
  generalize bs.drop gs.length = back at hback hfits
  obtain ⟨b, rest, hb, hrest, rfl⟩ := List.forall₂_cons_right_iff.mp hback
  obtain ⟨qs, hcut, hends, hqs⟩ := exists_cut_all hb.nonempty
  rw [hb.flatten] at hcut
  obtain ⟨cs, hsingles, rfl⟩ := delivers_singles hcut hends
  refine ⟨front ++ cs ++ rest, ?_, ?_⟩
  · exact List.rel_append (List.rel_append hfront hsingles) hrest
  · simp only [List.flatten_append, List.flatten_cons, List.map_append, List.append_assoc] at hfits ⊢
    exact Fits.append (fun k n => hqs k n _) hfits

/-! ## Fragments -/

/-- Among the ways of cutting a stream for which the results leave room in the buffer, all lead to the
same calls iff every group of lines that comes about is separate; for the others that the socket can
deliver the calls are not defined. -/
theorem fragments_agree_iff (lines : List RawLine) :
    ((∀ rs rs', Cut (stream lines) rs → Cut (stream lines) rs' → Fits 0 0 (rs.map .data) →
        Fits 0 0 (rs'.map .data) → calls junk (Thread.init junk) (rs.map .data) =
          calls junk (Thread.init junk) (rs'.map .data)) ↔
      ∀ gs, Groups lines gs → Comes gs → ∀ g ∈ gs, Separate g) ∧
    ∀ rs, Cut (stream lines) rs → Allowed junk (Thread.init junk) (rs.map .data) →
      ((calls junk (Thread.init junk) (rs.map .data)).isSome ↔ Fits 0 0 (rs.map .data)) := by
  refine ⟨?_, fun rs hcut hallowed => calls_isSome_iff hcut.nonempty hallowed⟩
  simp only [← calls_eq_iff]
  rw [← agree_iff Comes.split]
  constructor
  · rintro h gs gs' hgs ⟨bs, hbs, hfits⟩ hgs' ⟨bs', hbs', hfits'⟩
    have hcut := cut_of_delivers hbs hgs
    have hcut' := cut_of_delivers hbs' hgs'
    have heq := h _ _ hcut hcut' hfits hfits'
    rwa [calls_eq_feed hfits hcut.nonempty, calls_eq_feed hfits' hcut'.nonempty, feed_delivers hbs,
      feed_delivers hbs', Option.some_inj] at heq
  · intro h rs rs' hcut hcut' hfits hfits'
    rw [calls_eq_feed hfits hcut.nonempty, calls_eq_feed hfits' hcut'.nonempty]
    obtain ⟨bs, gs, hbs, hgs, rfl⟩ := feed_of_cut hcut
    obtain ⟨bs', gs', hbs', hgs', rfl⟩ := feed_of_cut hcut'
    rw [feed_delivers hbs, feed_delivers hbs', h gs gs' hgs ⟨bs, hbs, hfits⟩ hgs' ⟨bs', hbs', hfits'⟩]

/-- The line `x` takes the reply `5` with it when both come in one result. -/
theorem reply_lost_in_fragment :
    ¬ ∀ rs rs', Cut "x\n5\n".toList rs → Cut "x\n5\n".toList rs' →
      Allowed 'x' (Thread.init 'x') (rs.map .data) → Allowed 'x' (Thread.init 'x') (rs'.map .data) →
      calls 'x' (Thread.init 'x') (rs.map .data) = calls 'x' (Thread.init 'x') (rs'.map .data) := by
  intro h
  have hfits : Fits 0 0 (["x\n5\n".toList].map .data) := by
    refine ⟨by decide, ?_⟩
    rw [if_pos (by decide)]
    trivial
  have hfits' : Fits 0 0 (["x\n".toList, "5\n".toList].map .data) := by
    refine ⟨by decide, ?_⟩
    rw [if_pos (by decide)]
    refine ⟨by decide, ?_⟩
    rw [if_pos (by decide)]
    trivial
  have heq := h _ _ ⟨by decide, by simp⟩ ⟨by decide, by simp⟩
    (holds_init.allowed hfits (by decide)) (holds_init.allowed hfits' (by decide))
  rw [calls_eq_feed hfits (by decide), calls_eq_feed hfits' (by decide)] at heq
  exact absurd heq (by decide +kernel)

end Vimgdb.Vim.Receive
