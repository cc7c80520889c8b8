import Vimgdb.Gui.Readline
import Vimgdb.Lib.Buffer

/-!
# The buffer of the reader

`readline_thread` as it works on its buffer: the memory of `line`, its length and the index behind
what has been received.

* `Thread.recv`: one result of `recv`.  An access outside of `line` fails.
* `Safe`: every access is inside, and the loop is left at the first result that is not positive.
* `Thread.Holds.recv`, `Thread.Holds.recv_eq_none`: a result that leaves room, and one that does not.
* `safe_iff_fits`: the results for which the thread is safe.
* `calls_eq_feed`, `calls_eq_none`: for these, it makes the calls that `feed` makes, and for the others
  none that are defined.
-/

namespace Vimgdb.Vim.Receive

open Buffers

/-! ## The thread -/

/-- A result of `recv`: bytes, 0, or -1. -/
inductive Result
  | data (bytes : CStr)
  | shutdown
  | error

/-- The memory of `line`, the two counters, and whether the loop goes on. -/
structure Thread where
  line : CStr
  lineLen : BitVec 32
  i : BitVec 32
  running : Bool

section

-- what allocated memory contains
variable (junk : Char)

/-- The thread at its start. -/
def Thread.init : Thread := ⟨List.replicate 256 junk, 256, 0, true⟩

/-- The loop body, with the unsigned result. -/
def Thread.body (t : Thread) (r : BitVec 32) : Option (List Call × Thread) := do
  let i := t.i + r
  let line ← write t.line i.toNat '\x00'
  let last ← read line (i - 1).toNat
  if last ≠ '\n' then
    let lineLen := t.lineLen * 2
    return ([], { t with line := realloc junk line lineLen.toNat, lineLen, i })
  else
    let line ← write line (i - 1).toNat '\x00'
    let _ ← Buffers.text '\x00' line
    let line ← write line (i - 1).toNat '\n'
    let s ← Buffers.text '\x00' line
    return ((vimparse s).1, { t with line, i := 0 })

/-- A result of `recv`.  As a number without sign, -1 is positive. -/
def Thread.recv (t : Thread) : Result → Option (List Call × Thread)
  | .data bytes => do
      let line ← store t.line t.i.toNat bytes
      { t with line }.body junk (BitVec.ofNat 32 bytes.length)
  | .shutdown => some ([], { t with running := false })
  | .error => t.body junk (-1)

/-- The results come from `recv`: it receives something, and no more than it is offered.  What comes
behind the first result that is not positive does not matter. -/
def Allowed (t : Thread) : List Result → Prop
  | .data bytes :: rs => bytes ≠ [] ∧ bytes.length ≤ (t.lineLen - t.i).toNat ∧
      ∀ calls u, t.recv junk (.data bytes) = some (calls, u) → Allowed u rs
  | _ => True

/-- Every access is inside of `line`, and the loop is left at the first result that is not
positive. -/
def Safe (t : Thread) : List Result → Prop
  | [] => True
  | .data bytes :: rs =>
      ∃ calls u, t.recv junk (.data bytes) = some (calls, u) ∧ u.running ∧ Safe u rs
  | r :: _ => ∃ calls u, t.recv junk r = some (calls, u) ∧ u.running = false

/-- The calls for the results, up to the first that is not positive. -/
def calls (t : Thread) : List Result → Option (List Call)
  | .data bytes :: rs => do
      let r ← t.recv junk (.data bytes)
      return r.1 ++ (← calls r.2 rs)
  | _ => some []

end

/-- The length of the buffer after `k` results that ended inside a line. -/
def doubled : Nat → BitVec 32
  | 0 => 256
  | k + 1 => doubled k * 2

/-- Each result is shorter than what is offered, after `k` results that ended inside a line and with
`n` bytes of a line; and none is -1. -/
def Fits (k n : Nat) : List Result → Prop
  | [] => True
  | .data bytes :: rs => n + bytes.length < (doubled k).toNat ∧
      if bytes.getLast? = some '\n' then Fits k 0 rs else Fits (k + 1) (n + bytes.length) rs
  | .shutdown :: _ => True
  | .error :: _ => False

/-- The bytes that are received in front of the first result that is not positive. -/
def received : List Result → List CStr
  | .data bytes :: rs => bytes :: received rs
  | _ => []

variable {junk : Char} {t : Thread} {k : Nat} {s bytes : CStr}

/-! ## The length -/

theorem doubled_eq_zero_iff (k : Nat) : doubled k = 0 ↔ 24 ≤ k := by
  constructor
  · intro h
    by_contra hlt
    have hsmall : ∀ k < 24, doubled k ≠ 0 := by decide
    exact hsmall k (Nat.not_le.mp hlt) h
  · intro h
    induction k, h using Nat.le_induction with
    | base => decide
    | succ k _ ih =>
        rw [doubled, ih]
        rfl

/-- Doubling the length does not make it smaller, unless it becomes 0. -/
theorem doubled_le_succ (k : Nat) :
    doubled (k + 1) = 0 ∨ (doubled k).toNat ≤ (doubled (k + 1)).toNat := by
  by_cases hk : 24 ≤ k + 1
  · exact .inl ((doubled_eq_zero_iff _).mpr hk)
  · have hsmall : ∀ k < 23, (doubled k).toNat ≤ (doubled (k + 1)).toNat := by decide
    exact .inr (hsmall k (by omega))

/-! ## One result -/

/-- The thread has received `s` of a line, and `k` results that ended inside a line. -/
structure Thread.Holds (t : Thread) (k : Nat) (s : CStr) : Prop where
  line : doubled k ≠ 0 → ∃ rest, t.line = s ++ rest
  length : t.line.length = t.lineLen.toNat
  lineLen : t.lineLen = doubled k
  i : t.i.toNat = s.length
  room : doubled k ≠ 0 → s.length < (doubled k).toNat
  running : t.running = true

theorem holds_init : (Thread.init junk).Holds 0 [] where
  line _ := ⟨_, rfl⟩
  length := List.length_replicate
  lineLen := rfl
  i := rfl
  room _ := by decide
  running := rfl

/-- The memory, in front of and behind what a result writes. -/
theorem Thread.Holds.split (h : t.Holds k s) (hfit : s.length + bytes.length < (doubled k).toNat) :
    ∃ old z rest, t.line = s ++ old ++ z :: rest ∧ old.length = bytes.length := by
  have hne : doubled k ≠ 0 := by
    intro hzero
    rw [hzero] at hfit
    exact Nat.not_lt_zero _ hfit
  obtain ⟨tail, htail⟩ := h.line hne
  have hlen := h.length
  rw [htail, List.length_append, h.lineLen] at hlen
  obtain ⟨z, rest, hrest⟩ := List.exists_cons_of_ne_nil
    (show tail.drop bytes.length ≠ [] by
      rw [Ne, List.drop_eq_nil_iff]
      omega)
  refine ⟨tail.take bytes.length, z, rest, ?_, ?_⟩
  · rw [← hrest, List.append_assoc, List.take_append_drop, htail]
  · rw [List.length_take]
    omega

/-- The index behind what has been received. -/
theorem Thread.Holds.toNat_add (h : t.Holds k s)
    (hfit : s.length + bytes.length ≤ (doubled k).toNat) :
    (t.i + BitVec.ofNat 32 bytes.length).toNat = s.length + bytes.length := by
  have hlt := (doubled k).isLt
  rw [BitVec.toNat_add, BitVec.toNat_ofNat, h.i, Nat.add_mod_mod, Nat.mod_eq_of_lt]
  omega

/-- The parser reads up to the first 0. -/
theorem vimparse_takeWhile (s : CStr) : vimparse (s.takeWhile (· ≠ '\x00')) = vimparse s := by
  unfold vimparse
  rw [← scanned, scanned_of_notMem (notMem_scanned s)]

/-- The loop body, for a text that ends in front of the memory's end. -/
theorem Thread.body_eq {r : BitVec 32} {front rest : CStr} {c z : Char}
    (hline : t.line = front ++ c :: z :: rest) (hi : (t.i + r).toNat = front.length + 1) :
    t.body junk r = some (if c = '\n' then
        ((vimparse (front ++ [c])).1, { t with line := front ++ '\n' :: '\x00' :: rest, i := 0 })
      else ([], { t with
        line := realloc junk (front ++ c :: '\x00' :: rest) (t.lineLen * 2).toNat
        lineLen := t.lineLen * 2
        i := t.i + r })) := by
  have hlast : (t.i + r - 1).toNat = front.length := by
    have hlt := (t.i + r).isLt
    rw [BitVec.toNat_sub, show (1 : BitVec 32).toNat = 1 from rfl]
    omega
  have hwrite : write t.line (t.i + r).toNat '\x00' = some (front ++ c :: '\x00' :: rest) := by
    rw [hline, hi, List.append_cons, List.append_cons front c ('\x00' :: rest)]
    exact write_append (by rw [List.length_append, List.length_singleton])
  have hread : read (front ++ c :: '\x00' :: rest) front.length = some c := read_append rfl
  unfold body
  simp only [hwrite, hlast, Option.bind_eq_bind, Option.bind_some, hread]
  by_cases hc : c = '\n'
  · subst hc
    have htext : Buffers.text '\x00' (front ++ '\n' :: '\x00' :: rest) =
        some ((front ++ ['\n']).takeWhile (· ≠ '\x00')) := by
      rw [List.append_cons]
      exact text_append
    rw [if_neg (not_not.mpr rfl), if_pos rfl, write_append rfl, Option.bind_some, text_append,
      Option.bind_some, write_append rfl, Option.bind_some, htext, Option.bind_some,
      vimparse_takeWhile]
    rfl
  · rw [if_pos hc, if_neg hc]
    rfl

theorem Thread.recv_data :
    t.recv junk (.data bytes) = (store t.line t.i.toNat bytes).bind fun line =>
      { t with line }.body junk (BitVec.ofNat 32 bytes.length) := rfl

/-- What a result that leaves room does. -/
theorem Thread.Holds.recv (h : t.Holds k s) (hne : bytes ≠ [])
    (hfit : s.length + bytes.length < (doubled k).toNat) :
    ∃ u, t.recv junk (.data bytes) = some
        (if bytes.getLast? = some '\n' then (vimparse (s ++ bytes)).1 else [], u) ∧
      if bytes.getLast? = some '\n' then u.Holds k [] else u.Holds (k + 1) (s ++ bytes) := by
  obtain ⟨old, z, rest, hline, hold⟩ := h.split hfit
  have hi := h.toNat_add (Nat.le_of_lt hfit)
  have hlength := h.length
  have hstore : store t.line t.i.toNat bytes = some (s ++ bytes ++ z :: rest) := by
    rw [hline]
    exact store_append h.i hold
  obtain ⟨front, c, rfl⟩ : ∃ front c, bytes = front ++ [c] :=
    ⟨_, _, (List.dropLast_concat_getLast hne).symm⟩
  have hbody := @body_eq junk { t with line := s ++ (front ++ [c]) ++ z :: rest }
    (BitVec.ofNat 32 (front ++ [c]).length) (s ++ front) rest c z (by simp) (by
      show (t.i + BitVec.ofNat 32 (front ++ [c]).length).toNat = (s ++ front).length + 1
      rw [hi, List.length_append, List.length_append, List.length_singleton, Nat.add_assoc])
  rw [recv_data, hstore, Option.bind_some, hbody, List.getLast?_concat]
  have hlen : (s ++ front ++ c :: '\x00' :: rest).length = t.lineLen.toNat := by
    rw [← h.length, hline]
    simp only [List.length_append, List.length_cons, hold, List.length_nil]
    omega
  by_cases hc : c = '\n'
  · subst hc
    refine ⟨_, by rw [if_pos rfl, if_pos rfl, List.append_assoc], ?_⟩
    rw [if_pos rfl]
    exact ⟨fun _ => ⟨_, rfl⟩, hlen, h.lineLen, rfl, fun _ => Nat.zero_lt_of_lt hfit, h.running⟩
  · have hnl : some c ≠ some '\n' := fun heq => hc (Option.some.inj heq)
    refine ⟨_, by rw [if_neg hc, if_neg hnl], ?_⟩
    rw [if_neg hnl]
    have hdouble : t.lineLen * 2 = doubled (k + 1) := by
      rw [h.lineLen]
      rfl
    have hgrow : doubled (k + 1) ≠ 0 → (doubled k).toNat ≤ (doubled (k + 1)).toNat :=
      (doubled_le_succ k).resolve_left
    refine ⟨fun hzero => ?_, length_realloc _ _ _, hdouble, ?_, fun hzero => ?_, h.running⟩
    · have hle : (s ++ front ++ c :: '\x00' :: rest).length ≤ (t.lineLen * 2).toNat := by
        rw [hlen, hdouble, h.lineLen]
        exact hgrow hzero
      obtain ⟨pad, hpad⟩ : ∃ pad, realloc junk (s ++ front ++ c :: '\x00' :: rest)
          (t.lineLen * 2).toNat = s ++ front ++ c :: '\x00' :: rest ++ pad :=
        ⟨_, realloc_append hle⟩
      exact ⟨'\x00' :: rest ++ pad, hpad.trans (by simp)⟩
    · rw [@List.length_append _ s]
      exact hi
    · have hle := hgrow hzero
      rw [List.length_append]
      omega

/-- A result that leaves no room is stored outside, or its end is. -/
theorem Thread.Holds.recv_eq_none (h : t.Holds k s) (hne : bytes ≠ [])
    (hoffered : bytes.length ≤ (t.lineLen - t.i).toNat)
    (hfull : (doubled k).toNat ≤ s.length + bytes.length) : t.recv junk (.data bytes) = none := by
  rw [recv_data]
  by_cases hzero : doubled k = 0
  · have hlength := h.length
    rw [h.lineLen, hzero] at hlength
    have hpos := List.length_pos_of_ne_nil hne
    rw [store_eq_none hne (by rw [hlength]; exact Nat.add_pos_right _ hpos)]
    rfl
  · have hroom := h.room hzero
    obtain ⟨tail, htail⟩ := h.line hzero
    have hlt := (doubled k).isLt
    have hlen := h.length
    rw [htail, List.length_append, h.lineLen] at hlen
    rw [h.lineLen, BitVec.toNat_sub, h.i] at hoffered
    have htotal : tail.length = bytes.length := by omega
    have hstore : store t.line t.i.toNat bytes = some (s ++ bytes) := by
      have happend := @store_append _ s tail [] bytes t.i.toNat h.i htotal
      rwa [List.append_nil, List.append_nil, ← htail] at happend
    have hi := @toNat_add _ _ _ bytes h (by omega)
    rw [hstore, Option.bind_some, Thread.body]
    have hwrite : write (s ++ bytes) (t.i + BitVec.ofNat 32 bytes.length).toNat '\x00' = none := by
      rw [write_eq_none_iff, hi, List.length_append]
    simp only [hwrite]
    rfl

/-- The loop body does not end the loop. -/
theorem running_body {r : BitVec 32} {calls : List Call} {u : Thread}
    (hbody : t.body junk r = some (calls, u)) : u.running = t.running := by
  unfold Thread.body at hbody
  simp only [Option.bind_eq_bind, Option.bind_eq_some_iff] at hbody
  obtain ⟨line, -, last, -, hbody⟩ := hbody
  split at hbody
  · cases hbody
    rfl
  · simp only [Option.bind_eq_some_iff] at hbody
    obtain ⟨line, -, s, -, line', -, s', -, hbody⟩ := hbody
    cases hbody
    rfl

/-! ## All results -/

/-- The first result is inside; the others are with what it leaves. -/
theorem safe_cons_iff {rs : List Result} {calls : List Call} {u : Thread}
    (hrecv : t.recv junk (.data bytes) = some (calls, u)) (hrunning : u.running = true) :
    Safe junk t (.data bytes :: rs) ↔ Safe junk u rs := by
  constructor
  · rintro ⟨calls', u', hrecv', -, hsafe⟩
    rw [hrecv, Option.some_inj, Prod.mk.injEq] at hrecv'
    rwa [hrecv'.2]
  · intro hsafe
    exact ⟨calls, u, hrecv, hrunning, hsafe⟩

/-- The results for which a thread stays inside. -/
theorem Thread.Holds.safe_iff (h : t.Holds k s) {rs : List Result} (hallowed : Allowed junk t rs) :
    Safe junk t rs ↔ Fits k s.length rs := by
  induction rs generalizing t k s with
  | nil => exact Iff.rfl
  | cons r rs ih =>
      cases r with
      | shutdown => exact iff_of_true ⟨_, _, rfl, rfl⟩ trivial
      | error =>
          refine iff_of_false ?_ (fun hfits => hfits)
          rintro ⟨calls, u, hrecv, hstopped⟩
          rw [running_body hrecv, h.running] at hstopped
          exact Bool.noConfusion hstopped
      | data bytes =>
          obtain ⟨hne, hoffered, hrest⟩ := hallowed
          rw [Fits]
          by_cases hfit : s.length + bytes.length < (doubled k).toNat
          · obtain ⟨u, hrecv, hu⟩ := @Thread.Holds.recv junk _ _ _ _ h hne hfit
            rw [and_iff_right hfit]
            by_cases hnl : bytes.getLast? = some '\n'
            · rw [if_pos hnl] at hu
              rw [if_pos hnl, safe_cons_iff hrecv hu.running]
              exact ih hu (hrest _ u hrecv)
            · rw [if_neg hnl] at hu
              rw [if_neg hnl, safe_cons_iff hrecv hu.running, ← List.length_append]
              exact ih hu (hrest _ u hrecv)
          · refine iff_of_false ?_ (fun hfits => hfit hfits.1)
            rintro ⟨calls, u, hrecv, -⟩
            rw [h.recv_eq_none hne hoffered (Nat.not_lt.mp hfit)] at hrecv
            exact absurd hrecv nofun

/-- As long as the results leave room, the thread makes the calls that `feed` makes. -/
theorem Thread.Holds.calls_eq (h : t.Holds k s) {rs : List Result} (hfits : Fits k s.length rs)
    (hreceived : ∀ r ∈ received rs, r ≠ []) :
    calls junk t rs = some (feed s (received rs)).1 := by
  induction rs generalizing t k s with
  | nil => rfl
  | cons r rs ih =>
      cases r with
      | shutdown => rfl
      | error => rfl
      | data bytes =>
          obtain ⟨hfit, hrest⟩ := hfits
          rw [received, List.forall_mem_cons] at hreceived
          obtain ⟨u, hrecv, hu⟩ := @Thread.Holds.recv junk _ _ _ _ h hreceived.1 hfit
          rw [received, feed, Vim.recv, List.getLast?_append_of_ne_nil _ hreceived.1, calls, hrecv]
          by_cases hnl : bytes.getLast? = some '\n'
          · rw [if_pos hnl] at hu hrest
            rw [if_pos hnl, if_pos hnl]
            have hcalls := ih hu hrest hreceived.2
            simp only [Option.bind_eq_bind, Option.bind_some, hcalls]
            rfl
          · rw [if_neg hnl] at hu hrest
            rw [if_neg hnl, if_neg hnl]
            have hcalls := ih hu (by rwa [List.length_append]) hreceived.2
            simp only [Option.bind_eq_bind, Option.bind_some, hcalls]
            rfl

/-- A result that leaves no room is stored outside, and so the calls are not defined. -/
theorem Thread.Holds.calls_eq_none (h : t.Holds k s) {rs : List CStr}
    (hallowed : Allowed junk t (rs.map .data)) (hfits : ¬ Fits k s.length (rs.map .data)) :
    calls junk t (rs.map .data) = none := by
  induction rs generalizing t k s with
  | nil => exact absurd trivial hfits
  | cons bytes rs ih =>
      rw [List.map_cons] at hallowed hfits ⊢
      obtain ⟨hne, hoffered, hrest⟩ := hallowed
      rw [Fits, not_and] at hfits
      rw [calls]
      by_cases hfit : s.length + bytes.length < (doubled k).toNat
      · obtain ⟨u, hrecv, hu⟩ := @Thread.Holds.recv junk _ _ _ _ h hne hfit
        have hfits := hfits hfit
        have hnone : calls junk u (rs.map .data) = none := by
          by_cases hnl : bytes.getLast? = some '\n'
          · rw [if_pos hnl] at hu hfits
            exact ih hu (hrest _ u hrecv) hfits
          · rw [if_neg hnl] at hu hfits
            exact ih hu (hrest _ u hrecv) (by rwa [List.length_append])
        simp only [hrecv, Option.bind_eq_bind, Option.bind_some, hnone, Option.bind_none]
      · rw [h.recv_eq_none hne hoffered (Nat.not_lt.mp hfit)]
        rfl

/-- What is offered. -/
theorem Thread.Holds.offered (h : t.Holds k s) (hne : doubled k ≠ 0) :
    (t.lineLen - t.i).toNat = (doubled k).toNat - s.length := by
  have hroom := h.room hne
  have hlt := (doubled k).isLt
  rw [h.lineLen, BitVec.toNat_sub, h.i]
  omega

/-- Results that leave room are no longer than what is offered. -/
theorem Thread.Holds.allowed (h : t.Holds k s) {rs : List Result} (hfits : Fits k s.length rs)
    (hreceived : ∀ r ∈ received rs, r ≠ []) : Allowed junk t rs := by
  induction rs generalizing t k s with
  | nil => trivial
  | cons r rs ih =>
      cases r with
      | shutdown => trivial
      | error => trivial
      | data bytes =>
          obtain ⟨hfit, hrest⟩ := hfits
          rw [received, List.forall_mem_cons] at hreceived
          obtain ⟨u, hrecv, hu⟩ := @Thread.Holds.recv junk _ _ _ _ h hreceived.1 hfit
          refine ⟨hreceived.1, ?_, ?_⟩
          · rw [h.offered]
            · omega
            · intro hzero
              rw [hzero] at hfit
              exact Nat.not_lt_zero _ hfit
          · intro calls u' hrecv'
            rw [hrecv, Option.some_inj, Prod.mk.injEq] at hrecv'
            rw [← hrecv'.2]
            by_cases hnl : bytes.getLast? = some '\n'
            · rw [if_pos hnl] at hu hrest
              exact ih hu hrest hreceived.2
            · rw [if_neg hnl] at hu hrest
              exact ih hu (by rwa [List.length_append]) hreceived.2

/-- Every access is inside of the buffer, and the loop is left at the first result that is not
positive, iff no result is -1 and each is shorter than what is offered. -/
theorem safe_iff_fits {rs : List Result} (h : Allowed junk (Thread.init junk) rs) :
    Safe junk (Thread.init junk) rs ↔ Fits 0 0 rs :=
  holds_init.safe_iff h

/-- A message that is received in two parts, and then the end. -/
theorem two_parts_safe :
    Safe 'x' (Thread.init 'x') [.data "1:a".toList, .data "b=2\n".toList, .shutdown] := by
  have hfits : Fits 0 0 [.data "1:a".toList, .data "b=2\n".toList, .shutdown] := by
    refine ⟨by decide, ?_⟩
    rw [if_neg (by decide)]
    refine ⟨by decide, ?_⟩
    rw [if_pos (by decide)]
    trivial
  apply (safe_iff_fits _).mpr hfits
  exact holds_init.allowed hfits (by decide)

/-- As many bytes as the buffer has are received, or an error. -/
theorem exact_fill_and_error_unsafe :
    ¬ ((∀ bytes, Allowed 'x' (Thread.init 'x') [.data bytes] →
        Safe 'x' (Thread.init 'x') [.data bytes]) ∨ Safe 'x' (Thread.init 'x') [.error]) := by
  rintro (hfull | herror)
  · obtain ⟨bytes, hlen⟩ : ∃ bytes : CStr, bytes.length = 256 :=
      ⟨List.replicate 256 'a', List.length_replicate⟩
    have hne : bytes ≠ [] := List.ne_nil_of_length_pos (by omega)
    have hoffered : bytes.length ≤ ((Thread.init 'x').lineLen - (Thread.init 'x').i).toNat := by
      rw [hlen]
      decide
    obtain ⟨calls, u, hrecv, -⟩ := hfull bytes ⟨hne, hoffered, fun _ _ _ => trivial⟩
    rw [holds_init.recv_eq_none hne hoffered (by rw [hlen]; decide)] at hrecv
    exact absurd hrecv nofun
  · obtain ⟨calls, u, hrecv, hstopped⟩ := herror
    rw [running_body hrecv] at hstopped
    exact Bool.noConfusion hstopped

@[simp] theorem received_map_data (rs : List CStr) : received (rs.map .data) = rs := by
  induction rs with
  | nil => rfl
  | cons bytes rs ih => rw [List.map_cons, received, ih]

/-- For results that leave room, the calls are those of `feed`. -/
theorem calls_eq_feed {rs : List CStr} (hfits : Fits 0 0 (rs.map .data)) (hne : ∀ r ∈ rs, r ≠ []) :
    calls junk (Thread.init junk) (rs.map .data) = some (feed [] rs).1 := by
  rw [holds_init.calls_eq hfits (by rwa [received_map_data]), received_map_data]

/-- The calls for results the socket can deliver are defined iff the results leave room. -/
theorem calls_isSome_iff {rs : List CStr} (hne : ∀ r ∈ rs, r ≠ [])
    (hallowed : Allowed junk (Thread.init junk) (rs.map .data)) :
    (calls junk (Thread.init junk) (rs.map .data)).isSome ↔ Fits 0 0 (rs.map .data) := by
  by_cases hfits : Fits 0 0 (rs.map .data)
  · rw [calls_eq_feed hfits hne]
    exact iff_of_true rfl hfits
  · rw [holds_init.calls_eq_none hallowed hfits]
    exact iff_of_false Bool.false_ne_true hfits

end Vimgdb.Vim.Receive
