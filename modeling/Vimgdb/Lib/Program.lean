import Mathlib.Tactic.Common

/-!
# Programs with errors

A program reads and writes a state.  It returns a value, or it leaves with an error; what it does may
also be undefined.

* `Program`: the programs.
* `Post p Q E s`: from `s`, the program `p` returns only as `Q` says and leaves only as `E` says.
* `post_bind`, `post_tryCatch`: sequences and handlers.
* `Keeps`: an invariant that holds however the program ends.
* `zoom`: programs over a part of the state.
* `Returns p Q s`: from `s`, the program returns, and as `Q` says.
* `Refines f p q`: whatever `p` comes to, `q` comes to with `f` of the value.
-/

namespace Programs

/-- A program over the states `σ`, with the errors `ε`.  Nothing, `none`, is what it comes to when it
is undefined. -/
abbrev Program (σ ε α : Type) := ExceptT ε (StateT σ Option) α

variable {σ τ ε α β : Type}

/-- The program is undefined. -/
def undefined : Program σ ε α := ExceptT.mk fun _ => none

/-- What the program comes to from a state. -/
def exec (p : Program σ ε α) (s : σ) : Option (Except ε α × σ) := p.run.run s

/-- The program is run, and it does not matter how it ends. -/
def attempt (p : Program σ ε Unit) : Program σ ε Unit := tryCatch p fun _ => pure ()

/-- Nothing is said of what follows unless `c` holds. -/
def assume (c : Bool) : Program σ ε Unit := if c then pure () else undefined

/-- The program is run if `c` holds. -/
def onlyIf (c : Bool) (p : Program σ ε Unit) : Program σ ε Unit := if c then p else pure ()

/-- What holds of a value that is returned, or of an error, with the state behind it. -/
def Ends (Q : α → σ → Prop) (E : ε → σ → Prop) : Except ε α × σ → Prop
  | (.ok a, t) => Q a t
  | (.error e, t) => E e t

/-- However the program ends, `Q` holds of what it returns and `E` of the error. -/
def Post (p : Program σ ε α) (Q : α → σ → Prop) (E : ε → σ → Prop) (s : σ) : Prop :=
  ∀ r, exec p s = some r → Ends Q E r

variable {p : Program σ ε α} {Q Q' : α → σ → Prop} {E E' : ε → σ → Prop} {s : σ}

/-! ## Rules -/

theorem Post.mono (h : Post p Q E s) (hQ : ∀ a t, Q a t → Q' a t) (hE : ∀ e t, E e t → E' e t) :
    Post p Q' E' s := by
  rintro ⟨r, t⟩ hr
  have hends := h _ hr
  cases r with
  | ok a => exact hQ a t hends
  | error e => exact hE e t hends

theorem Post.and (h : Post p Q E s) (h' : Post p Q' E' s) :
    Post p (fun a t => Q a t ∧ Q' a t) (fun e t => E e t ∧ E' e t) s := by
  rintro ⟨r, t⟩ hr
  have hends := h _ hr
  have hends' := h' _ hr
  cases r with
  | ok a => exact ⟨hends, hends'⟩
  | error e => exact ⟨hends, hends'⟩

/-- A value that is returned is remembered. -/
theorem Post.ofExec (h : Post p Q E s) :
    Post p (fun a t => exec p s = some (.ok a, t) ∧ Q a t) E s := by
  rintro ⟨r, t⟩ hr
  have hends := h _ hr
  cases r with
  | ok a => exact ⟨hr, hends⟩
  | error e => exact hends

/-- What is known of the state however the program ends. -/
theorem Post.holds {P : σ → Prop} {r : Except ε α} {t : σ} (h : Post p (fun _ => P) (fun _ => P) s)
    (hexec : exec p s = some (r, t)) : P t := by
  have hends := h _ hexec
  cases r with
  | ok a => exact hends
  | error e => exact hends

@[simp] theorem post_undefined : Post (undefined : Program σ ε α) Q E s := nofun

@[simp] theorem post_pure {a : α} : Post (pure a : Program σ ε α) Q E s ↔ Q a s := by
  constructor
  · intro h
    exact h (.ok a, s) rfl
  · rintro h r hr
    obtain rfl : (.ok a, s) = r := Option.some.inj hr
    exact h

@[simp] theorem post_throw {e : ε} : Post (throw e : Program σ ε α) Q E s ↔ E e s := by
  constructor
  · intro h
    exact h (.error e, s) rfl
  · rintro h r hr
    obtain rfl : (.error e, s) = r := Option.some.inj hr
    exact h

@[simp] theorem post_get {Q : σ → σ → Prop} : Post (get : Program σ ε σ) Q E s ↔ Q s s := by
  constructor
  · intro h
    exact h (.ok s, s) rfl
  · rintro h r hr
    obtain rfl : (.ok s, s) = r := Option.some.inj hr
    exact h

@[simp] theorem post_set {t : σ} {Q : PUnit → σ → Prop} :
    Post (set t : Program σ ε PUnit) Q E s ↔ Q ⟨⟩ t := by
  constructor
  · intro h
    exact h (.ok ⟨⟩, t) rfl
  · rintro h r hr
    obtain rfl : (.ok ⟨⟩, t) = r := Option.some.inj hr
    exact h

@[simp] theorem post_modify {f : σ → σ} {Q : PUnit → σ → Prop} :
    Post (modify f : Program σ ε PUnit) Q E s ↔ Q ⟨⟩ (f s) := by
  constructor
  · intro h
    exact h (.ok ⟨⟩, f s) rfl
  · rintro h r hr
    obtain rfl : (.ok ⟨⟩, f s) = r := Option.some.inj hr
    exact h

/-- A program that returns has a state behind it. -/
theorem exists_exec_of_isOk {p : Program σ ε Unit} {s : σ}
    (h : (exec p s).map (fun r => r.1.isOk) = some true) : ∃ t, exec p s = some (.ok (), t) := by
  rcases hexec : exec p s with _ | ⟨_ | _, t⟩
  · rw [hexec] at h
    cases h
  · rw [hexec] at h
    cases h
  · exact ⟨t, rfl⟩

theorem exec_bind (p : Program σ ε α) (f : α → Program σ ε β) (s : σ) :
    exec (p >>= f) s = (exec p s).bind fun r =>
      match r with
      | (.ok a, t) => exec (f a) t
      | (.error e, t) => some (.error e, t) := by
  show (exec p s).bind _ = _
  congr 1
  funext ⟨r, t⟩
  cases r <;> rfl

/-- The state is read first. -/
theorem exec_get_bind (f : σ → Program σ ε α) (s : σ) : exec (get >>= f) s = exec (f s) s := by
  rw [exec_bind]
  rfl

theorem exec_tryCatch (p : Program σ ε α) (f : ε → Program σ ε α) (s : σ) :
    exec (tryCatch p f) s = (exec p s).bind fun r =>
      match r with
      | (.ok a, t) => some (.ok a, t)
      | (.error e, t) => exec (f e) t := by
  show (exec p s).bind _ = _
  congr 1
  funext ⟨r, t⟩
  cases r <;> rfl

/-- A sequence. -/
@[simp] theorem post_bind {f : α → Program σ ε β} {Q : β → σ → Prop} :
    Post (p >>= f) Q E s ↔ Post p (fun a t => Post (f a) Q E t) E s := by
  unfold Post
  simp only [exec_bind]
  rcases exec p s with _ | ⟨_ | _, t⟩ <;> simp [Ends]

/-- A handler. -/
@[simp] theorem post_tryCatch {f : ε → Program σ ε α} :
    Post (tryCatch p f) Q E s ↔ Post p Q (fun e t => Post (f e) Q E t) s := by
  unfold Post
  simp only [exec_tryCatch]
  rcases exec p s with _ | ⟨_ | _, t⟩ <;> simp [Ends]

@[simp] theorem post_attempt {p : Program σ ε Unit} {Q : Unit → σ → Prop} :
    Post (attempt p) Q E s ↔ Post p Q (fun _ t => Q () t) s := by
  rw [attempt, post_tryCatch]
  simp only [post_pure]

@[simp] theorem post_assume {c : Bool} {Q : Unit → σ → Prop} :
    Post (assume c) Q E s ↔ (c = true → Q () s) := by
  cases c
  · exact ⟨fun _ => nofun, fun _ => post_undefined⟩
  · exact post_pure.trans ⟨fun h _ => h, fun h => h rfl⟩

@[simp] theorem post_onlyIf {c : Bool} {p : Program σ ε Unit} {Q : Unit → σ → Prop} :
    Post (onlyIf c p) Q E s ↔ if c then Post p Q E s else Q () s := by
  cases c
  · exact post_pure
  · exact Iff.rfl

/-- A loop that passes a value on. -/
theorem post_foldlM {γ : Type} {K : β → σ → Prop} {f : β → γ → Program σ ε β} {b : β}
    (hf : ∀ b x s, K b s → Post (f b x) K E s) (xs : List γ) (h : K b s) :
    Post (xs.foldlM f b) K E s := by
  induction xs generalizing b s with
  | nil => exact post_pure.mpr h
  | cons x xs ih =>
      show Post (f b x >>= fun b => xs.foldlM f b) _ _ s
      rw [post_bind]
      exact (hf b x s h).mono (fun _ _ ht => ih ht) fun _ _ ht => ht

/-! ## Invariants -/

/-- The program keeps `I`, however it ends. -/
def Keeps (I : σ → Prop) (p : Program σ ε α) : Prop :=
  ∀ s, I s → Post p (fun _ => I) (fun _ => I) s

variable {I : σ → Prop}

theorem keeps_undefined : Keeps I (undefined : Program σ ε α) := fun _ _ => post_undefined

theorem keeps_pure (a : α) : Keeps I (pure a : Program σ ε α) := fun _ hs => post_pure.mpr hs

theorem keeps_throw (e : ε) : Keeps I (throw e : Program σ ε α) := fun _ hs => post_throw.mpr hs

theorem keeps_get : Keeps I (get : Program σ ε σ) := fun _ hs => post_get.mpr hs

theorem keeps_modify {f : σ → σ} (hf : ∀ s, I s → I (f s)) :
    Keeps I (modify f : Program σ ε PUnit) := fun s hs => post_modify.mpr (hf s hs)

theorem Keeps.bind {f : α → Program σ ε β} (hp : Keeps I p) (hf : ∀ a, Keeps I (f a)) :
    Keeps I (p >>= f) := by
  intro s hs
  rw [post_bind]
  exact (hp s hs).mono (fun a t ht => hf a t ht) fun _ _ ht => ht

/-- An attempt does not leave with an error. -/
theorem Keeps.noError {p : Program σ ε Unit} (hp : Keeps I p) (hs : I s) :
    Post (attempt p) (fun _ => I) E s :=
  post_attempt.mpr (hp s hs)

theorem Keeps.attempt {p : Program σ ε Unit} (hp : Keeps I p) : Keeps I (attempt p) := by
  intro s hs
  rw [post_attempt]
  exact hp s hs

theorem Keeps.onlyIf {p : Program σ ε Unit} (hp : Keeps I p) (c : Bool) : Keeps I (onlyIf c p) := by
  cases c
  · exact keeps_pure ()
  · exact hp

theorem keeps_forM {γ : Type} {f : γ → Program σ ε PUnit} (hf : ∀ x, Keeps I (f x)) (xs : List γ) :
    Keeps I (xs.forM f) := by
  induction xs with
  | nil => exact keeps_pure _
  | cons x xs ih => exact (hf x).bind fun _ => ih

/-! ## Parts of a state -/

/-- A program over a part of the state: `view` reads the part and `put` writes it. -/
def zoom (view : σ → τ) (put : τ → σ → σ) (p : Program τ ε α) : Program σ ε α :=
  ExceptT.mk fun s => (exec p (view s)).map fun r => (r.1, put r.2 s)

theorem exec_zoom (view : σ → τ) (put : τ → σ → σ) (p : Program τ ε α) (s : σ) :
    exec (zoom view put p) s = (exec p (view s)).map fun r => (r.1, put r.2 s) := rfl

/-- A program over a part of the state. -/
theorem post_zoom {view : σ → τ} {put : τ → σ → σ} {p : Program τ ε α} :
    Post (zoom view put p) Q E s ↔
      Post p (fun a t => Q a (put t s)) (fun e t => E e (put t s)) (view s) := by
  unfold Post
  simp only [exec_zoom]
  rcases exec p (view s) with _ | ⟨_ | _, t⟩ <;> simp [Ends]

/-- An invariant that does not depend on the part. -/
theorem keeps_zoom {view : σ → τ} {put : τ → σ → σ} {p : Program τ ε α}
    (h : ∀ s t, I s → I (put t s)) : Keeps I (zoom view put p) := by
  intro s hs
  rw [post_zoom]
  rintro ⟨_ | _, t⟩ -
  · exact h s t hs
  · exact h s t hs

/-! ## Programs that return -/

/-- The program returns, and `Q` holds of what it returns. -/
def Returns (p : Program σ ε α) (Q : α → σ → Prop) (s : σ) : Prop :=
  ∃ a t, exec p s = some (.ok a, t) ∧ Q a t

theorem Returns.mono (h : Returns p Q s) (hQ : ∀ a t, Q a t → Q' a t) : Returns p Q' s := by
  obtain ⟨a, t, hexec, ha⟩ := h
  exact ⟨a, t, hexec, hQ a t ha⟩

/-- What holds however the program ends holds when it returns. -/
theorem Returns.and_post (h : Returns p Q s) (hp : Post p Q' E s) :
    Returns p (fun a t => Q a t ∧ Q' a t) s := by
  obtain ⟨a, t, hexec, ha⟩ := h
  exact ⟨a, t, hexec, ha, hp _ hexec⟩

theorem returns_pure {a : α} : Returns (pure a : Program σ ε α) Q s ↔ Q a s := by
  constructor
  · rintro ⟨b, t, hexec, hb⟩
    obtain ⟨h, rfl⟩ := Prod.mk.inj (Option.some.inj hexec)
    obtain rfl := Except.ok.inj h
    exact hb
  · intro h
    exact ⟨a, s, rfl, h⟩

theorem returns_get {Q : σ → σ → Prop} : Returns (get : Program σ ε σ) Q s ↔ Q s s := by
  constructor
  · rintro ⟨b, t, hexec, hb⟩
    obtain ⟨h, rfl⟩ := Prod.mk.inj (Option.some.inj hexec)
    obtain rfl := Except.ok.inj h
    exact hb
  · intro h
    exact ⟨s, s, rfl, h⟩

theorem returns_modify {f : σ → σ} {Q : PUnit → σ → Prop} :
    Returns (modify f : Program σ ε PUnit) Q s ↔ Q ⟨⟩ (f s) := by
  constructor
  · rintro ⟨b, t, hexec, hb⟩
    obtain ⟨h, rfl⟩ := Prod.mk.inj (Option.some.inj hexec)
    exact hb
  · intro h
    exact ⟨⟨⟩, f s, rfl, h⟩

theorem returns_onlyIf {c : Bool} {p : Program σ ε Unit} {Q : Unit → σ → Prop} :
    Returns (onlyIf c p) Q s ↔ if c then Returns p Q s else Q () s := by
  cases c
  · exact returns_pure
  · exact Iff.rfl

theorem returns_assume {c : Bool} {Q : Unit → σ → Prop} (hc : c = true) :
    Returns (assume c : Program σ ε Unit) Q s ↔ Q () s := by
  subst hc
  exact returns_pure

/-- What is known of a program that returns. -/
theorem Returns.post (h : Returns p Q s) : Post p Q E s := by
  obtain ⟨a, t, hexec, ha⟩ := h
  intro r hr
  obtain rfl := Option.some.inj (hexec.symm.trans hr)
  exact ha

/-- Behind a program that returns, the next one is run. -/
theorem Returns.exec_bind (h : Returns p Q s) (f : α → Program σ ε β) :
    ∃ a t, Q a t ∧ exec (p >>= f) s = exec (f a) t := by
  obtain ⟨a, t, hexec, ha⟩ := h
  refine ⟨a, t, ha, ?_⟩
  rw [Programs.exec_bind, hexec]
  rfl

/-- A sequence. -/
theorem returns_bind {f : α → Program σ ε β} {Q : β → σ → Prop} :
    Returns (p >>= f) Q s ↔ Returns p (fun a t => Returns (f a) Q t) s := by
  unfold Returns
  simp only [exec_bind]
  rcases exec p s with _ | ⟨_ | _, t⟩ <;> simp

/-- An attempt returns if what is attempted does. -/
theorem Returns.attempt {p : Program σ ε Unit} {Q : Unit → σ → Prop} (h : Returns p Q s) :
    Returns (attempt p) Q s := by
  obtain ⟨a, t, hexec, ha⟩ := h
  refine ⟨a, t, ?_, ha⟩
  rw [Programs.attempt, exec_tryCatch, hexec]
  rfl

/-- A program over a part of the state. -/
theorem returns_zoom {view : σ → τ} {put : τ → σ → σ} {p : Program τ ε α} :
    Returns (zoom view put p) Q s ↔ Returns p (fun a t => Q a (put t s)) (view s) := by
  unfold Returns
  simp only [exec_zoom]
  rcases exec p (view s) with _ | ⟨_ | _, t⟩ <;> simp

/-! ## Refinement -/

/-- Whatever `p` comes to, `q` comes to with `f` of the value. -/
def Refines (f : α → β) (p : Program σ ε α) (q : Program σ ε β) : Prop :=
  ∀ s r, exec p s = some r → exec q s = some (r.1.map f, r.2)

section
variable {γ δ : Type} {f : α → β} {g : γ → δ} {q : Program σ ε β}

theorem refines_undefined : Refines f undefined q := nofun

theorem refines_pure (a : α) : Refines f (pure a : Program σ ε α) (pure (f a)) := by
  rintro s r hr
  obtain rfl : (.ok a, s) = r := Option.some.inj hr
  rfl

theorem refines_self (p : Program σ ε α) : Refines id p p := by
  rintro s ⟨_ | _, t⟩ hr
  · exact hr
  · exact hr

/-- A sequence. -/
theorem Refines.bind {k : α → Program σ ε γ} {k' : β → Program σ ε δ} (h : Refines f p q)
    (hk : ∀ a, Refines g (k a) (k' (f a))) : Refines g (p >>= k) (q >>= k') := by
  intro s r hr
  rw [exec_bind] at hr ⊢
  obtain ⟨⟨r₀, t⟩, hp, hr⟩ := Option.bind_eq_some_iff.mp hr
  rw [h s _ hp, Option.bind_some]
  cases r₀ with
  | ok a => exact hk a t r hr
  | error e =>
      obtain rfl : (.error e, t) = r := Option.some.inj hr
      rfl

/-- A program that leaves the state is not needed for its value. -/
theorem Refines.skip {b : β} {k : α → Program σ ε γ} {q' : Program σ ε δ}
    (h : Refines f p (pure b)) (hk : ∀ a, f a = b → Refines g (k a) q') :
    Refines g (p >>= k) q' := by
  intro s r hr
  rw [exec_bind] at hr
  obtain ⟨⟨r₀, t⟩, hp, hr⟩ := Option.bind_eq_some_iff.mp hr
  obtain ⟨heq, rfl⟩ := Prod.mk.inj (Option.some.inj (h s _ hp))
  cases r₀ with
  | ok a => exact hk a (Except.ok.inj heq).symm _ r hr
  | error e => cases heq

/-- A value that is made behind the program. -/
theorem refines_bind_pure {k : α → γ} {f : γ → α} (h : ∀ a, f (k a) = a) :
    Refines f (p >>= fun a => pure (k a)) p := by
  intro s r hr
  rw [exec_bind] at hr
  obtain ⟨⟨_ | a, t⟩, hp, hr⟩ := Option.bind_eq_some_iff.mp hr
  · cases hr
    exact hp
  · obtain rfl : (.ok (k a), t) = r := Option.some.inj hr
    rw [hp]
    show _ = some (Except.ok (f (k a)), t)
    rw [h]

/-- A sequence of which only the second program differs. -/
theorem refines_bind_self {k : α → Program σ ε γ} {k' : α → Program σ ε δ}
    (hk : ∀ a, Refines g (k a) (k' a)) : Refines g (p >>= k) (p >>= k') :=
  (refines_self p).bind hk

/-- A program over a part of the state. -/
theorem refines_zoom {view : τ → σ} {put : σ → τ → τ} (h : Refines f p q) :
    Refines f (zoom view put p) (zoom view put q) := by
  intro s r hr
  rw [exec_zoom] at hr ⊢
  obtain ⟨⟨r₀, t⟩, hp, rfl⟩ := Option.map_eq_some_iff.mp hr
  rw [h _ _ hp]
  rfl

theorem refines_foldlM {k : α → γ → Program σ ε α} {k' : β → γ → Program σ ε β}
    (hk : ∀ a x, Refines f (k a x) (k' (f a) x)) (xs : List γ) (a : α) :
    Refines f (xs.foldlM k a) (xs.foldlM k' (f a)) := by
  induction xs generalizing a with
  | nil => exact refines_pure a
  | cons x xs ih => exact (hk a x).bind ih

end

end Programs
