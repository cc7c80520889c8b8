import Mathlib.Computability.Language

/-!
# Regular expressions over character classes, and their longest match

Mathlib's `RegularExpression` has single letters only; the patterns of a scanner generator are built
from character classes, which may be negated.

* `Re.lang`: the language of an expression.
* `Re.deriv`, `mem_deriv`: the derivative by a character, kept small by `mkSeq` and `mkAlt`.
* `Re.longest`: the length of the longest prefix of a text in the language, computed by derivatives;
  `longest_eq_some_iff` and `longest_eq_none_iff` say that it is that.
* `EndsAt`: no word of the language goes on behind a given character.  The longest match in a text
  that contains the character is then the same whatever follows the text (`longest_append`).
-/

namespace Flex

/-- A regular expression; `cls neg ranges` is `[ranges]`, or `[^ranges]` if `neg` is set. -/
inductive Re
  | zero
  | eps
  | cls (neg : Bool) (ranges : List (Char × Char))
  | seq (r s : Re)
  | alt (r s : Re)
  | star (r : Re)
  deriving DecidableEq

namespace Re

/-- Membership in a character class. -/
def inClass (neg : Bool) (ranges : List (Char × Char)) (c : Char) : Bool :=
  (ranges.any fun p => p.1 ≤ c && c ≤ p.2) != neg

/-- A single character. -/
def chr (c : Char) : Re := cls false [(c, c)]

/-- A literal text. -/
def lit : List Char → Re
  | [] => eps
  | c :: s => seq (chr c) (lit s)

/-- At most one `r`. -/
def opt (r : Re) : Re := alt r eps

/-- Any character but a newline. -/
def dot : Re := cls true [('\n', '\n')]

/-- The language of an expression. -/
def lang : Re → Language Char
  | zero => 0
  | eps => 1
  | cls neg ranges => {w | ∃ c, w = [c] ∧ inClass neg ranges c = true}
  | seq r s => r.lang * s.lang
  | alt r s => r.lang + s.lang
  | star r => KStar.kstar r.lang

@[simp] theorem mem_lang_zero (w : List Char) : w ∈ zero.lang ↔ False := Iff.rfl

@[simp] theorem mem_lang_eps (w : List Char) : w ∈ eps.lang ↔ w = [] := Iff.rfl

@[simp] theorem mem_lang_cls (neg : Bool) (ranges : List (Char × Char)) (w : List Char) :
    w ∈ (cls neg ranges).lang ↔ ∃ c, w = [c] ∧ inClass neg ranges c = true := Iff.rfl

@[simp] theorem mem_lang_seq (r s : Re) (w : List Char) :
    w ∈ (seq r s).lang ↔ ∃ u ∈ r.lang, ∃ v ∈ s.lang, u ++ v = w := Language.mem_mul

@[simp] theorem mem_lang_alt (r s : Re) (w : List Char) :
    w ∈ (alt r s).lang ↔ w ∈ r.lang ∨ w ∈ s.lang := Language.mem_add _ _ _

theorem inClass_singleton (neg : Bool) (a c : Char) :
    inClass neg [(a, a)] c = ((c == a) != neg) := by
  have h : (decide (a ≤ c) && decide (c ≤ a)) = (c == a) := by
    rw [Bool.eq_iff_iff]
    simp only [Bool.and_eq_true, decide_eq_true_eq, beq_iff_eq]
    constructor
    · rintro ⟨h₁, h₂⟩; exact Char.le_antisymm h₂ h₁
    · rintro rfl; exact ⟨Char.le_refl _, Char.le_refl _⟩
  simp [inClass, h]

theorem mem_lang_chr (c : Char) (w : List Char) : w ∈ (chr c).lang ↔ w = [c] := by
  simp [chr, inClass_singleton]

theorem mem_lang_lit (s w : List Char) : w ∈ (lit s).lang ↔ w = s := by
  induction s generalizing w with
  | nil => exact Iff.rfl
  | cons c s ih =>
      simp only [lit, mem_lang_seq, mem_lang_chr, ih]
      constructor
      · rintro ⟨u, rfl, v, rfl, rfl⟩; rfl
      · rintro rfl; exact ⟨[c], rfl, s, rfl, rfl⟩

theorem mem_lang_star_cls (neg : Bool) (ranges : List (Char × Char)) (w : List Char) :
    w ∈ (star (cls neg ranges)).lang ↔ ∀ c ∈ w, inClass neg ranges c = true := by
  rw [lang, Language.mem_kstar]
  constructor
  · rintro ⟨l, rfl, hl⟩ c hc
    obtain ⟨y, hy, hcy⟩ := List.mem_flatten.mp hc
    obtain ⟨d, rfl, hd⟩ := hl y hy
    rw [List.mem_singleton] at hcy
    exact hcy ▸ hd
  · intro h
    refine ⟨w.map fun c => [c], by rw [← List.flatMap_def, List.flatMap_singleton'], fun y hy => ?_⟩
    obtain ⟨c, hc, rfl⟩ := List.mem_map.mp hy
    exact ⟨c, rfl, h c hc⟩

/-! ## Derivatives -/

/-- Does the language contain the empty word? -/
def nullable : Re → Bool
  | zero => false
  | eps => true
  | cls .. => false
  | seq r s => r.nullable && s.nullable
  | alt r s => r.nullable || s.nullable
  | star _ => true

theorem nullable_iff (r : Re) : r.nullable = true ↔ [] ∈ r.lang := by
  induction r with
  | zero => simp [nullable]
  | eps => simp [nullable]
  | cls neg ranges => simp [nullable]
  | seq r s ihr ihs => simp [nullable, ihr, ihs]
  | alt r s ihr ihs => simp [nullable, ihr, ihs]
  | star r _ => exact iff_of_true rfl (Language.nil_mem_kstar r.lang)

/-- `seq`, without the factors that make it trivial. -/
def mkSeq : Re → Re → Re
  | zero, _ => zero
  | eps, s => s
  | r, s => seq r s

/-- `alt`, without empty branches. -/
def mkAlt : Re → Re → Re
  | zero, s => s
  | r, zero => r
  | r, s => alt r s

theorem lang_mkSeq (r s : Re) : (mkSeq r s).lang = r.lang * s.lang := by
  unfold mkSeq
  split
  · exact (zero_mul _).symm
  · exact (one_mul _).symm
  · rfl

theorem lang_mkAlt (r s : Re) : (mkAlt r s).lang = r.lang + s.lang := by
  unfold mkAlt
  split
  · exact (zero_add _).symm
  · exact (add_zero _).symm
  · rfl

/-- The derivative by a character. -/
def deriv (c : Char) : Re → Re
  | zero => zero
  | eps => zero
  | cls neg ranges => if inClass neg ranges c then eps else zero
  | seq r s =>
      if r.nullable then mkAlt (mkSeq (deriv c r) s) (deriv c s) else mkSeq (deriv c r) s
  | alt r s => mkAlt (deriv c r) (deriv c s)
  | star r => mkSeq (deriv c r) (star r)

private theorem cons_mem_mul (l m : Language Char) (c : Char) (w : List Char) :
    c :: w ∈ l * m ↔
      (∃ u v, c :: u ∈ l ∧ v ∈ m ∧ u ++ v = w) ∨ ([] ∈ l ∧ c :: w ∈ m) := by
  rw [Language.mem_mul]
  constructor
  · rintro ⟨u, hu, v, hv, huv⟩
    cases u with
    | nil => exact Or.inr ⟨hu, by simpa [← huv] using hv⟩
    | cons d u =>
        obtain ⟨rfl, rfl⟩ := List.cons.inj huv
        exact Or.inl ⟨u, v, hu, hv, rfl⟩
  · rintro (⟨u, v, hu, hv, rfl⟩ | ⟨hl, hm⟩)
    · exact ⟨c :: u, hu, v, hv, rfl⟩
    · exact ⟨[], hl, c :: w, hm, rfl⟩

/-- The derivative by `c` contains what the language continues `c` with. -/
theorem mem_deriv (c : Char) (r : Re) (w : List Char) :
    w ∈ (deriv c r).lang ↔ c :: w ∈ r.lang := by
  induction r generalizing w with
  | zero => simp [deriv]
  | eps => simp [deriv]
  | cls neg ranges =>
      unfold deriv
      split_ifs with h
      · simp [h]
      · simp [h]
  | seq r s ihr ihs =>
      have hseq : w ∈ (mkSeq (deriv c r) s).lang ↔
          ∃ u v, c :: u ∈ r.lang ∧ v ∈ s.lang ∧ u ++ v = w := by
        rw [lang_mkSeq, Language.mem_mul]
        constructor
        · rintro ⟨u, hu, v, hv, huv⟩; exact ⟨u, v, (ihr u).mp hu, hv, huv⟩
        · rintro ⟨u, v, hu, hv, huv⟩; exact ⟨u, (ihr u).mpr hu, v, hv, huv⟩
      rw [lang, cons_mem_mul, ← nullable_iff, ← hseq, ← ihs, deriv]
      split_ifs with h
      · rw [lang_mkAlt, Language.mem_add]; simp [h]
      · simp [h]
  | alt r s ihr ihs =>
      rw [deriv, lang_mkAlt, Language.mem_add, ihr, ihs, mem_lang_alt]
  | star r ih =>
      rw [deriv, lang_mkSeq, Language.mem_mul, lang, Language.mem_kstar_iff_exists_nonempty]
      constructor
      · rintro ⟨u, hu, v, hv, rfl⟩
        obtain ⟨l, rfl, hl⟩ := Language.mem_kstar_iff_exists_nonempty.mp hv
        refine ⟨(c :: u) :: l, rfl, ?_⟩
        rintro y hy
        rcases List.mem_cons.mp hy with rfl | hy
        · exact ⟨(ih u).mp hu, List.cons_ne_nil _ _⟩
        · exact hl y hy
      · rintro ⟨l, hw, hl⟩
        cases l with
        | nil => simp at hw
        | cons y l =>
            obtain ⟨hy, hne⟩ := hl y List.mem_cons_self
            cases y with
            | nil => exact absurd rfl hne
            | cons d u =>
                obtain ⟨rfl, rfl⟩ := List.cons.inj hw
                exact ⟨u, (ih u).mpr hy, _, Language.join_mem_kstar fun y hy =>
                  (hl y (List.mem_cons_of_mem _ hy)).1, rfl⟩

/-! ## The longest match -/

/-- The length of the longest prefix of the text in the language. -/
def longest : Re → List Char → Option Nat
  | zero, _ => none
  | r, [] => if r.nullable then some 0 else none
  | r, c :: s =>
      match longest (deriv c r) s with
      | some n => some (n + 1)
      | none => if r.nullable then some 0 else none

theorem longest_nil (r : Re) : longest r [] = if r.nullable then some 0 else none := by
  cases r <;> rfl

theorem longest_cons (r : Re) (c : Char) (s : List Char) : longest r (c :: s) =
    match longest (deriv c r) s with
    | some n => some (n + 1)
    | none => if r.nullable then some 0 else none := by
  cases r with
  | zero => cases s <;> rfl
  | eps | cls | seq | alt | star => rfl

/-- No prefix of the text is in the language. -/
theorem longest_eq_none_iff (r : Re) (s : List Char) :
    longest r s = none ↔ ∀ u v, s = u ++ v → u ∉ r.lang := by
  induction s generalizing r with
  | nil =>
      rw [longest_nil, ite_eq_right_iff, nullable_iff]
      constructor
      · intro h u v huv hu
        obtain ⟨rfl, -⟩ := List.append_eq_nil_iff.mp huv.symm
        exact absurd (h hu) (by simp)
      · intro h hnil
        exact absurd hnil (h [] [] rfl)
  | cons c s ih =>
      rw [longest_cons]
      constructor
      · intro h u v huv hu
        cases hd : longest (deriv c r) s with
        | some n => simp [hd] at h
        | none =>
            cases u with
            | nil => simp [hd, (nullable_iff r).mpr hu] at h
            | cons d u =>
                obtain ⟨rfl, rfl⟩ := List.cons.inj huv
                exact (ih _).mp hd u v rfl ((mem_deriv _ _ _).mpr hu)
      · intro h
        have hd : longest (deriv c r) s = none := (ih _).mpr fun u v huv hu =>
          h (c :: u) v (by rw [huv]; rfl) ((mem_deriv _ _ _).mp hu)
        have hn : r.nullable ≠ true := fun hn => h [] (c :: s) rfl ((nullable_iff r).mp hn)
        simp [hd, hn]

/-- `n` is the length of the longest prefix of the text in the language. -/
theorem longest_eq_some_iff (r : Re) (s : List Char) (n : Nat) :
    longest r s = some n ↔ (∃ u v, s = u ++ v ∧ u.length = n ∧ u ∈ r.lang) ∧
      ∀ u v, s = u ++ v → u ∈ r.lang → u.length ≤ n := by
  induction s generalizing r n with
  | nil =>
      rw [longest_nil, Option.ite_none_right_eq_some, nullable_iff, Option.some.injEq]
      constructor
      · rintro ⟨hnil, rfl⟩
        refine ⟨⟨[], [], rfl, rfl, hnil⟩, fun u v huv _ => ?_⟩
        obtain ⟨rfl, -⟩ := List.append_eq_nil_iff.mp huv.symm
        rfl
      · rintro ⟨⟨u, v, huv, hlen, hu⟩, -⟩
        obtain ⟨rfl, -⟩ := List.append_eq_nil_iff.mp huv.symm
        exact ⟨hu, hlen⟩
  | cons c s ih =>
      rw [longest_cons]
      cases hd : longest (deriv c r) s with
      | none =>
          -- only the empty prefix can be in the language
          have hcons : ∀ u v, s = u ++ v → c :: u ∉ r.lang := fun u v huv hu =>
            (longest_eq_none_iff _ _).mp hd u v huv ((mem_deriv _ _ _).mpr hu)
          simp only [Option.ite_none_right_eq_some, nullable_iff, Option.some.injEq]
          constructor
          · rintro ⟨hnil, rfl⟩
            refine ⟨⟨[], c :: s, rfl, rfl, hnil⟩, fun u v huv hu => ?_⟩
            cases u with
            | nil => rfl
            | cons d u =>
                obtain ⟨rfl, rfl⟩ := List.cons.inj huv
                exact absurd hu (hcons u v rfl)
          · rintro ⟨⟨u, v, huv, hlen, hu⟩, -⟩
            cases u with
            | nil => exact ⟨hu, hlen⟩
            | cons d u =>
                obtain ⟨rfl, rfl⟩ := List.cons.inj huv
                exact absurd hu (hcons u v rfl)
      | some m =>
          obtain ⟨⟨u₀, v₀, huv₀, hlen₀, hu₀⟩, hmax⟩ := (ih _ _).mp hd
          rw [Option.some.injEq]
          have hbound : ∀ u v, c :: s = u ++ v → u ∈ r.lang → u.length ≤ m + 1 := by
            intro u v huv hu
            cases u with
            | nil => exact Nat.zero_le _
            | cons d u =>
                obtain ⟨rfl, rfl⟩ := List.cons.inj huv
                have := hmax u v rfl ((mem_deriv _ _ _).mpr hu)
                simpa using this
          constructor
          · rintro rfl
            exact ⟨⟨c :: u₀, v₀, by rw [huv₀]; rfl, by simp [hlen₀],
              (mem_deriv _ _ _).mp hu₀⟩, hbound⟩
          · rintro ⟨⟨u, v, huv, hlen, hu⟩, hle⟩
            have h₁ := hbound u v huv hu
            have h₂ := hle (c :: u₀) v₀ (by rw [huv₀]; rfl) ((mem_deriv _ _ _).mp hu₀)
            simp only [List.length_cons, hlen₀] at h₂
            omega

/-- The longest match lies inside the text. -/
theorem longest_le {r : Re} {s : List Char} {n : Nat} (h : longest r s = some n) :
    n ≤ s.length := by
  obtain ⟨⟨u, v, rfl, rfl, -⟩, -⟩ := (longest_eq_some_iff r s n).mp h
  simp

/-- If no longer prefix of `s ++ t` than `s` itself is in the language, `t` does not matter. -/
theorem longest_append_of_forall {r : Re} {s t : List Char}
    (h : ∀ u v, t = u ++ v → u ≠ [] → s ++ u ∉ r.lang) : longest r (s ++ t) = longest r s := by
  -- a prefix of `s ++ t` in the language is a prefix of `s`
  have hpre : ∀ u v, s ++ t = u ++ v → u ∈ r.lang → ∃ w, s = u ++ w := by
    intro u v huv hu
    rcases List.append_eq_append_iff.mp huv with ⟨w, rfl, ht⟩ | ⟨w, hs, -⟩
    · by_cases hw : w = []
      · exact ⟨[], by simp [hw]⟩
      · exact absurd hu (h w v ht hw)
    · exact ⟨w, hs⟩
  cases hs : longest r s with
  | none =>
      rw [longest_eq_none_iff] at hs ⊢
      intro u v huv hu
      obtain ⟨w, hw⟩ := hpre u v huv hu
      exact hs u w hw hu
  | some n =>
      rw [longest_eq_some_iff] at hs ⊢
      obtain ⟨⟨u, v, rfl, hlen, hu⟩, hmax⟩ := hs
      refine ⟨⟨u, v ++ t, by simp, hlen, hu⟩, fun u' v' huv' hu' => ?_⟩
      obtain ⟨w, hw⟩ := hpre u' v' huv' hu'
      exact hmax u' w hw hu'

/-- If the longest match in `s ++ t` lies inside `s`, `t` does not matter. -/
theorem longest_of_append {r : Re} {s t : List Char}
    (h : ∀ n, longest r (s ++ t) = some n → n ≤ s.length) :
    longest r s = longest r (s ++ t) := by
  refine (longest_append_of_forall fun u v huv hne hmem => ?_).symm
  -- a match beyond `s` would bound the longest one from below
  cases hlong : longest r (s ++ t) with
  | none => exact (longest_eq_none_iff _ _).mp hlong (s ++ u) v (by rw [huv, List.append_assoc]) hmem
  | some n =>
      have hle := ((longest_eq_some_iff _ _ _).mp hlong).2 (s ++ u) v
        (by rw [huv, List.append_assoc]) hmem
      have := h n hlong
      have := List.length_pos_iff.mpr hne
      rw [List.length_append] at hle
      omega

theorem longest_eps (s : List Char) : longest eps s = some 0 := by
  cases s <;> simp [nullable, deriv, longest]

theorem longest_zero (s : List Char) : longest zero s = none := by
  cases s <;> rfl

/-! ## Expressions that end at a character -/

/-- No word of the language goes on behind an occurrence of `c`. -/
def EndsAt (c : Char) (r : Re) : Prop := ∀ u v, u ++ c :: v ∈ r.lang → v = []

/-- No word of the language contains `c`. -/
def Avoids (c : Char) (r : Re) : Prop := ∀ w ∈ r.lang, c ∉ w

/-- The class, if the expression has any, excludes `c`: a sufficient check for `Avoids`. -/
def avoids (c : Char) : Re → Bool
  | zero => true
  | eps => true
  | cls neg ranges => !inClass neg ranges c
  | seq r s => r.avoids c && s.avoids c
  | alt r s => r.avoids c && s.avoids c
  | star r => r.avoids c

/-- A sufficient check for `EndsAt`. -/
def endsAt (c : Char) : Re → Bool
  | zero => true
  | eps => true
  | cls .. => true
  | seq r s => r.avoids c && s.endsAt c
  | alt r s => r.endsAt c && s.endsAt c
  | star r => r.avoids c

theorem avoids_sound {c : Char} {r : Re} (h : r.avoids c = true) : r.Avoids c := by
  induction r with
  | zero => intro w hw; simp at hw
  | eps => intro w hw; simp at hw; simp [hw]
  | cls neg ranges =>
      rintro w ⟨d, rfl, hd⟩ hmem
      rw [List.mem_singleton] at hmem
      subst hmem
      simp [avoids, hd] at h
  | seq r s ihr ihs =>
      simp only [avoids, Bool.and_eq_true] at h
      intro w hw
      obtain ⟨u, hu, v, hv, rfl⟩ := (mem_lang_seq _ _ _).mp hw
      rw [List.mem_append]
      rintro (hmem | hmem)
      · exact ihr h.1 u hu hmem
      · exact ihs h.2 v hv hmem
  | alt r s ihr ihs =>
      simp only [avoids, Bool.and_eq_true] at h
      intro w hw
      rcases (mem_lang_alt _ _ _).mp hw with hw | hw
      · exact ihr h.1 w hw
      · exact ihs h.2 w hw
  | star r ih =>
      intro w hw hmem
      obtain ⟨l, rfl, hl⟩ := Language.mem_kstar.mp hw
      obtain ⟨y, hy, hc⟩ := List.mem_flatten.mp hmem
      exact ih h y (hl y hy) hc

theorem Avoids.endsAt {c : Char} {r : Re} (h : r.Avoids c) : r.EndsAt c := fun u v hmem =>
  absurd (by simp) (h _ hmem)

theorem endsAt_sound {c : Char} {r : Re} (h : r.endsAt c = true) : r.EndsAt c := by
  induction r with
  | zero => intro u v hw; simp at hw
  | eps => intro u v hw; simp at hw
  | cls neg ranges =>
      rintro u v ⟨d, hd, -⟩
      have := congrArg List.length hd
      simp only [List.length_append, List.length_cons, List.length_nil] at this
      exact List.eq_nil_of_length_eq_zero (by omega)
  | seq r s ihr ihs =>
      simp only [Re.endsAt, Bool.and_eq_true] at h
      intro u v hw
      obtain ⟨x, hx, y, hy, hxy⟩ := (mem_lang_seq _ _ _).mp hw
      -- `c` is not in the first factor, so it is in the second one
      rcases List.append_eq_append_iff.mp hxy with ⟨w, rfl, rfl⟩ | ⟨w, rfl, hw'⟩
      · exact ihs h.2 w v hy
      · cases w with
        | nil => exact ihs h.2 [] v (by simpa using hw' ▸ hy)
        | cons d w =>
            obtain ⟨rfl, -⟩ := List.cons.inj hw'
            exact absurd (by simp) (avoids_sound h.1 _ hx)
  | alt r s ihr ihs =>
      simp only [Re.endsAt, Bool.and_eq_true] at h
      intro u v hw
      rcases (mem_lang_alt _ _ _).mp hw with hw | hw
      · exact ihr h.1 u v hw
      · exact ihs h.2 u v hw
  | star r _ => exact (avoids_sound (r := star r) h).endsAt

/-- The longest match of an expression that ends at `c`, in a text that contains `c`, does not
depend on what follows the text. -/
theorem longest_append {c : Char} {r : Re} (h : r.EndsAt c) {s : List Char} (hc : c ∈ s)
    (t : List Char) : longest r (s ++ t) = longest r s := by
  apply longest_append_of_forall
  intro u v _ hne hmem
  obtain ⟨x, y, rfl⟩ := List.append_of_mem hc
  rw [List.append_assoc] at hmem
  have hnil := h x (y ++ u) hmem
  exact hne (List.append_eq_nil_iff.mp hnil).2

end Re

end Flex
