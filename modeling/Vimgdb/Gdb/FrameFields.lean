import Vimgdb.Gdb.MemoryObject

/-!
# The fields of frames

`frame-body` reads the fields of a frame in any order.

* `Reads.items`: a body reads the entries it has rules for.
* `FrameField`, `frameTokens`: the fields, and their tokens.
* `FrameField.enter`: what a field does to the frame.
* `frameBody_frameTokens`: the parser enters all fields.
* `frame_addr_iff`: the address is the one that is written, in the lower half of the addresses alone.
-/

namespace Vimgdb.Gdb

/-! ## Bodies -/

section
variable {α E : Type} {item : Tok → Option (α → P α)} {first : E → Tok} {body : E → List Tok}
  {enter : α → E → α} {fin : Tok} {rest : List Tok}

/-- The tokens of entries behind others. -/
def moreTokens (first : E → Tok) (body : E → List Tok) (es : List E) : List Tok :=
  es.flatMap fun e => .chr ',' :: first e :: body e

/-- The tokens of entries. -/
def bodyTokens (first : E → Tok) (body : E → List Tok) : List E → List Tok
  | [] => []
  | e :: es => first e :: body e ++ moreTokens first body es

/-- Each entry is read by its rule, and no entry begins with what ends the body. -/
structure Reads (item : Tok → Option (α → P α)) (first : E → Tok) (body : E → List Tok)
    (enter : α → E → α) (fin : Tok) : Prop where
  entry : ∀ a e rest, ∃ f, item (first e) = some f ∧ f a (body e ++ rest) = .accepted (enter a e, rest)
  comma : ∀ e, first e ≠ .chr ','
  none : item fin = none
  last : fin ≠ .chr ','

theorem Reads.more (h : Reads item first body enter fin) (es : List E) (a : α) {fuel : Nat}
    (hfuel : es.length < fuel) :
    itemsFuel item fuel a (moreTokens first body es ++ fin :: rest) =
      .accepted (es.foldl enter a, fin :: rest) := by
  induction es generalizing a fuel with
  | nil =>
      obtain ⟨fuel, rfl⟩ := Nat.exists_eq_succ_of_ne_zero (Nat.ne_zero_of_lt hfuel)
      show itemsFuel item (fuel + 1) a (fin :: rest) = _
      unfold itemsFuel
      split
      · next heq => exact absurd (List.head_eq_of_cons_eq heq) h.last
      · next heq =>
          obtain ⟨rfl, rfl⟩ := List.cons_eq_cons.mp heq
          rw [h.none]
          rfl
      · next heq => cases heq
  | cons e es ih =>
      obtain ⟨fuel, rfl⟩ := Nat.exists_eq_succ_of_ne_zero (Nat.ne_zero_of_lt hfuel)
      obtain ⟨f, hitem, hread⟩ := h.entry a e (moreTokens first body es ++ fin :: rest)
      have htokens : moreTokens first body (e :: es) ++ fin :: rest =
          .chr ',' :: first e :: (body e ++ (moreTokens first body es ++ fin :: rest)) := by
        simp [moreTokens]
      rw [htokens]
      simp only [itemsFuel, hitem]
      show Outcome.bind (f a (body e ++ (moreTokens first body es ++ fin :: rest))) _ = _
      rw [hread]
      exact ih (enter a e) (Nat.lt_of_succ_lt_succ hfuel)

theorem length_le_moreTokens (es : List E) : es.length ≤ (moreTokens first body es).length := by
  induction es with
  | nil => exact Nat.le_refl 0
  | cons e es ih =>
      have hcons : moreTokens first body (e :: es) =
          .chr ',' :: first e :: body e ++ moreTokens first body es := rfl
      rw [hcons, List.length_cons, List.length_append, List.length_cons, List.length_cons]
      omega

/-- A body reads its entries. -/
theorem Reads.items (h : Reads item first body enter fin) (es : List E) (a : α) :
    items item a (bodyTokens first body es ++ fin :: rest) = .accepted (es.foldl enter a, fin :: rest) := by
  unfold Gdb.items
  cases es with
  | nil => exact h.more [] a (Nat.succ_pos _)
  | cons e es =>
      obtain ⟨f, hitem, hread⟩ := h.entry a e (moreTokens first body es ++ fin :: rest)
      have htokens : bodyTokens first body (e :: es) ++ fin :: rest =
          first e :: (body e ++ (moreTokens first body es ++ fin :: rest)) := by
        simp [bodyTokens]
      have hlength : es.length < (body e ++ (moreTokens first body es ++ fin :: rest)).length + 1 := by
        have hmore := @length_le_moreTokens _ first body es
        rw [List.length_append, List.length_append]
        omega
      rw [htokens, List.length_cons]
      unfold itemsFuel
      split
      · next heq => exact absurd (List.head_eq_of_cons_eq heq) (h.comma e)
      · next heq =>
          obtain ⟨rfl, rfl⟩ := List.cons_eq_cons.mp heq
          rw [hitem]
          show Outcome.bind (f a (body e ++ (moreTokens first body es ++ fin :: rest))) _ = _
          rw [hread]
          exact h.more es (enter a e) hlength
      · next heq => cases heq

end

/-! ## Fields -/

theorem string_tokens (s : CStr) (rest : List Tok) :
    (stringTokens s ++ rest) = .chr '=' :: (stringTokens s).tail ++ rest ∧
      string ((stringTokens s).tail ++ rest) = .accepted (s, rest) := by
  unfold stringTokens
  split <;> subst_vars <;> exact ⟨rfl, rfl⟩

/-- A field is read, whatever is made of its string. -/
theorem field_tokens {α β : Type} {p : P β} {make : CStr → β} {enter : α → β → α}
    (hp : ∀ s toks rest, string toks = .accepted (s, rest) → p toks = .accepted (make s, rest)) (a : α) (s : CStr)
    (rest : List Tok) :
    ∃ f, field p enter = some f ∧ f a (stringTokens s ++ rest) = .accepted (enter a (make s), rest) := by
  obtain ⟨htokens, hstring⟩ := string_tokens s rest
  refine ⟨_, rfl, ?_⟩
  rw [htokens]
  show Outcome.bind (p ((stringTokens s).tail ++ rest)) _ = _
  rw [hp s _ rest hstring]
  rfl

theorem stringNum_eq {s : CStr} {toks rest : List Tok} (h : string toks = .accepted (s, rest)) :
    stringNum toks = .accepted (atoi s, rest) := by
  show Outcome.bind (string toks) _ = _
  rw [h]
  rfl

theorem stringLlnumHex_eq {s : CStr} {toks rest : List Tok} (h : string toks = .accepted (s, rest)) :
    stringLlnumHex toks = .accepted (strtollHex s, rest) := by
  show Outcome.bind (string toks) _ = _
  rw [h]
  rfl

theorem stringDummy_eq {s : CStr} {toks rest : List Tok} (h : string toks = .accepted (s, rest)) :
    stringDummy toks = .accepted ((), rest) := by
  show Outcome.bind (string toks) _ = _
  rw [h]
  rfl

/-! ## Arguments -/

/-- What is in front of the string of a field of an argument. -/
def argVar (e : Bool × CStr) : Tok := if e.1 then .var .name else .var .value

/-- The tokens of the fields of an argument. -/
def argTokens (e : List (Bool × CStr)) : List Tok :=
  bodyTokens argVar (fun x => stringTokens x.2) e ++ [.chr '}']

/-- The tokens of arguments. -/
def argsTokens (es : List (List (Bool × CStr))) : List Tok :=
  .chr '[' :: bodyTokens (fun _ => .chr '{') argTokens es ++ [.chr ']']

theorem argListFuel_fields (fuel : Nat) (e : List (Bool × CStr)) (rest : List Tok) :
    argListFuel (fuel + 1) (bodyTokens argVar (fun x => stringTokens x.2) e ++ .chr '}' :: rest) =
      .accepted ((), .chr '}' :: rest) := by
  unfold argListFuel
  refine @Reads.items _ _ _ _ _ (fun _ _ => ()) _ _ ⟨fun a x rest => ?_, fun x => ?_, rfl, by decide⟩ e ()
  · obtain ⟨named, s⟩ := x
    cases named <;> exact field_tokens (fun _ _ _ => stringDummy_eq) a s rest
  · obtain ⟨named, s⟩ := x
    cases named <;> exact nofun

theorem argListFuel_args (fuel : Nat) (es : List (List (Bool × CStr))) (rest : List Tok) :
    argListFuel (fuel + 2) (bodyTokens (fun _ => .chr '{') argTokens es ++ .chr ']' :: rest) =
      .accepted ((), .chr ']' :: rest) := by
  unfold argListFuel
  refine @Reads.items _ _ _ _ _ (fun _ _ => ()) _ _ ⟨fun a e rest => ?_, fun e => ?_, rfl, by decide⟩ es ()
  · refine ⟨_, rfl, ?_⟩
    unfold argTokens
    rw [List.append_assoc]
    show Outcome.bind (argListFuel (fuel + 1) _) _ = _
    rw [List.singleton_append, argListFuel_fields]
    rfl
  · exact nofun

/-- The arguments of a frame are skipped. -/
theorem args_argsTokens (es : List (List (Bool × CStr))) (rest : List Tok) :
    enclosed '[' ']' argList (argsTokens es ++ rest) = .accepted ((), rest) := by
  have hargs := argListFuel_args
    ((bodyTokens (fun _ => .chr '{') argTokens es ++ .chr ']' :: rest).length - 1) es rest
  have htokens : argsTokens es ++ rest =
      .chr '[' :: (bodyTokens (fun _ => .chr '{') argTokens es ++ .chr ']' :: rest) := by
    simp [argsTokens]
  have hlist : argList (bodyTokens (fun _ => .chr '{') argTokens es ++ .chr ']' :: rest) =
      argListFuel ((bodyTokens (fun _ => .chr '{') argTokens es ++ .chr ']' :: rest).length + 1)
        (bodyTokens (fun _ => .chr '{') argTokens es ++ .chr ']' :: rest) := rfl
  have hlength : (bodyTokens (fun _ => .chr '{') argTokens es ++ .chr ']' :: rest).length - 1 + 2 =
      (bodyTokens (fun _ => .chr '{') argTokens es ++ .chr ']' :: rest).length + 1 := by
    rw [List.length_append, List.length_cons]
    omega
  rw [hlength, ← hlist] at hargs
  rw [htokens]
  show Outcome.bind (argList _) _ = _
  rw [hargs]
  rfl

/-! ## Frames -/

/-- A field of a frame. -/
inductive FrameField
  | addr (s : CStr)
  | line (s : CStr)
  | level (s : CStr)
  | func (s : CStr)
  | file (s : CStr)
  | fullname (s : CStr)
  | from_ (s : CStr)
  | arch (s : CStr)
  | args (es : List (List (Bool × CStr)))

/-- The keyword of a field. -/
def FrameField.var : FrameField → Tok
  | addr _ => .var .address
  | line _ => .var .line
  | level _ => .var .level
  | func _ => .var .function
  | file _ => .var .file
  | fullname _ => .var .fullname
  | from_ _ => .var .from_
  | arch _ => .var .arch
  | args _ => .var .args

/-- The tokens behind the keyword. -/
def FrameField.tokens : FrameField → List Tok
  | addr s | line s | level s | func s | file s | fullname s | from_ s | arch s => stringTokens s
  | args es => .chr '=' :: argsTokens es

/-- What a field does to the frame. -/
def FrameField.enter (f : Frame) : FrameField → Frame
  | addr s => { f with addr := strtollHex s }
  | line s => { f with line := atoi s }
  | level s => { f with level := atoi s }
  | func s => { f with function := some s }
  | file s => { f with filename := some s }
  | fullname s => { f with fullname := some s }
  | from_ s => { f with «from» := some s }
  | arch _ => f
  | args _ => f

/-- The tokens of a frame. -/
def frameTokens (xs : List FrameField) : List Tok := bodyTokens FrameField.var FrameField.tokens xs

/-- The parser enters all fields. -/
theorem frameBody_frameTokens (xs : List FrameField) (rest : List Tok) :
    frameBody (frameTokens xs ++ .chr '}' :: rest) =
      .accepted (xs.foldl FrameField.enter {}, .chr '}' :: rest) := by
  unfold frameBody frameTokens
  refine @Reads.items _ _ _ _ _ FrameField.enter _ _
    ⟨fun f x rest => ?_, fun x => ?_, rfl, by decide⟩ xs {}
  · cases x with
    | addr s => exact field_tokens (fun _ _ _ => stringLlnumHex_eq) f s rest
    | line s => exact field_tokens (fun _ _ _ => stringNum_eq) f s rest
    | level s => exact field_tokens (fun _ _ _ => stringNum_eq) f s rest
    | func s => exact field_tokens (fun _ _ _ => id) f s rest
    | file s => exact field_tokens (fun _ _ _ => id) f s rest
    | fullname s => exact field_tokens (fun _ _ _ => id) f s rest
    | from_ s => exact field_tokens (fun _ _ _ => id) f s rest
    | arch s => exact field_tokens (fun _ _ _ => id) f s rest
    | args es =>
        refine ⟨_, rfl, ?_⟩
        show Outcome.bind (enclosed '[' ']' argList (argsTokens es ++ rest)) _ = _
        rw [args_argsTokens]
        rfl
  · cases x <;> exact nofun

/-- Fields other than the address leave it as it is. -/
theorem addr_foldl {xs : List FrameField} (h : ∀ s, FrameField.addr s ∉ xs) (f : Frame) :
    (xs.foldl FrameField.enter f).addr = f.addr := by
  induction xs generalizing f with
  | nil => rfl
  | cons x xs ih =>
      have hx : (FrameField.enter f x).addr = f.addr := by
        cases x with
        | addr s => exact absurd List.mem_cons_self (h s)
        | _ => rfl
      rw [List.foldl_cons, ih fun s hs => h s (List.mem_cons_of_mem x hs), hx]

/-- The signed conversion gives the address in the lower half of the addresses alone. -/
theorem strtollHex_iff {s : CStr} (h : IsAddr s) (hlt : addrValue s < 2 ^ 64) :
    strtollHex s = BitVec.ofNat 64 (addrValue s) ↔ addrValue s < 2 ^ 63 := by
  rw [strtollHex_addr h, ← BitVec.toNat_inj, BitVec.toNat_ofNat, BitVec.toNat_ofNat]
  omega

/-- The address of a frame is the last one that is written, if it is in the lower half. -/
theorem frame_addr_iff {pre post : List FrameField} (hpost : ∀ s, FrameField.addr s ∉ post) {s : CStr}
    (h : IsAddr s) (hlt : addrValue s < 2 ^ 64) (rest : List Tok) :
    (∃ f, frameBody (frameTokens (pre ++ .addr s :: post) ++ .chr '}' :: rest) =
        .accepted (f, .chr '}' :: rest) ∧ f.addr = BitVec.ofNat 64 (addrValue s)) ↔
      addrValue s < 2 ^ 63 := by
  rw [← strtollHex_iff h hlt, frameBody_frameTokens, List.foldl_append, List.foldl_cons]
  have haddr := addr_foldl hpost (FrameField.enter (pre.foldl FrameField.enter {}) (.addr s))
  constructor
  · rintro ⟨f, hf, heq⟩
    obtain ⟨rfl, -⟩ := Prod.mk.inj (Outcome.accepted_inj.mp hf)
    rw [← heq, haddr]
    rfl
  · intro heq
    exact ⟨_, rfl, haddr.trans heq⟩

end Vimgdb.Gdb
