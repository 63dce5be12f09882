/-
# Two machines on the same input

A small library for two step functions that read the same list and may fail.  It names
nothing of a particular system.

* `Agree R x y`: both fail, or both succeed with related states;
* `AlongBoth f g ok s t as`: every element of the list is read in a pair of states that
  meets the side condition `ok`;
* `foldlM_agree` is the induction rule: when every conforming step keeps the machines in
  agreement, every conforming run does;
* `foldlM_follow` is the rule for one direction: the first machine succeeds wherever the
  second does.
-/
import Mathlib.Data.List.Basic

namespace Lockstep

variable {σ τ α ε δ : Type*}

/-- Both fail, or both succeed with related states. -/
def Agree (R : σ → τ → Prop) : Except ε σ → Except δ τ → Prop
  | .ok s, .ok t => R s t
  | .error _, .error _ => True
  | _, _ => False

theorem Agree.cases {R : σ → τ → Prop} {x : Except ε σ} {y : Except δ τ} (h : Agree R x y) :
    (∃ s t, x = .ok s ∧ y = .ok t ∧ R s t) ∨ ∃ e d, x = .error e ∧ y = .error d := by
  rcases x with e | s
  · rcases y with d | t
    · exact Or.inr ⟨e, d, rfl, rfl⟩
    · exact h.elim
  · rcases y with d | t
    · exact h.elim
    · exact Or.inl ⟨s, t, rfl, rfl, h⟩

theorem agree_ok {R : σ → τ → Prop} {s : σ} {t : τ} (h : R s t) :
    Agree R (.ok s : Except ε σ) (.ok t : Except δ τ) :=
  h

theorem agree_error (R : σ → τ → Prop) (e : ε) (d : δ) :
    Agree R (.error e : Except ε σ) (.error d : Except δ τ) :=
  trivial

-- with the rules above nothing has to unfold `Agree`, which would evaluate both machines
attribute [irreducible] Agree

/-- Agreement is kept by going on on both sides. -/
theorem Agree.bind {σ τ υ φ : Type} {R : σ → τ → Prop} {S : υ → φ → Prop} {x : Except ε σ}
    {y : Except δ τ} {f : σ → Except ε υ} {g : τ → Except δ φ} (h : Agree R x y)
    (hfg : ∀ s t, R s t → Agree S (f s) (g t)) : Agree S (x >>= f) (y >>= g) := by
  rcases h.cases with ⟨s, t, rfl, rfl, hR⟩ | ⟨e, d, rfl, rfl⟩
  · exact hfg s t hR
  · exact agree_error S e d

/-- Every element is read in a pair of states that meets `ok`; the condition ends where one
of the machines fails. -/
def AlongBoth (f : σ → α → Except ε σ) (g : τ → α → Except δ τ) (ok : σ → τ → α → Prop) :
    σ → τ → List α → Prop
  | _, _, [] => True
  | s, t, a :: as =>
      ok s t a ∧
        match f s a, g t a with
        | .ok s', .ok t' => AlongBoth f g ok s' t' as
        | _, _ => True

instance AlongBoth.decidable (f : σ → α → Except ε σ) (g : τ → α → Except δ τ)
    (ok : σ → τ → α → Prop) [∀ s t a, Decidable (ok s t a)] :
    ∀ (s : σ) (t : τ) (as : List α), Decidable (AlongBoth f g ok s t as)
  | _, _, [] => isTrue trivial
  | s, t, a :: as =>
      letI : Decidable (match f s a, g t a with
          | .ok s', .ok t' => AlongBoth f g ok s' t' as
          | _, _ => True) :=
        match f s a, g t a with
        | .ok s', .ok t' => AlongBoth.decidable f g ok s' t' as
        | .ok _, .error _ => isTrue trivial
        | .error _, .ok _ => isTrue trivial
        | .error _, .error _ => isTrue trivial
      inferInstanceAs (Decidable (_ ∧ _))

/-- **The lockstep rule.** -/
theorem foldlM_agree {f : σ → α → Except ε σ} {g : τ → α → Except δ τ}
    {ok : σ → τ → α → Prop} {R : σ → τ → Prop}
    (hstep : ∀ s t a, R s t → ok s t a → Agree R (f s a) (g t a)) :
    ∀ (as : List α) (s : σ) (t : τ), R s t → AlongBoth f g ok s t as →
      Agree R (as.foldlM f s) (as.foldlM g t) := by
  intro as
  induction as with
  | nil =>
      intro s t hR _
      exact agree_ok hR
  | cons a as ih =>
      intro s t hR hok
      rw [List.foldlM_cons, List.foldlM_cons]
      rw [AlongBoth] at hok
      obtain ⟨hhead, hrest⟩ := hok
      have hagree := hstep s t a hR hhead
      rcases hagree.cases with ⟨s', t', hf, hg, hR'⟩ | ⟨e, d, hf, hg⟩
      · rw [hf, hg] at hrest ⊢
        exact ih s' t' hR' hrest
      · rw [hf, hg]
        exact agree_error R e d

/-- **Following.**  When every successful conforming step of the second machine is followed by
the first, so is every successful conforming run. -/
theorem foldlM_follow {f : σ → α → Except ε σ} {g : τ → α → Except δ τ}
    {ok : σ → τ → α → Prop} {R : σ → τ → Prop}
    (hstep : ∀ s t t' a, R s t → ok s t a → g t a = .ok t' → ∃ s', f s a = .ok s' ∧ R s' t') :
    ∀ (as : List α) (s : σ) (t t' : τ), R s t → AlongBoth f g ok s t as →
      as.foldlM g t = .ok t' → ∃ s', as.foldlM f s = .ok s' ∧ R s' t' := by
  intro as
  induction as with
  | nil =>
      intro s t t' hR _ h
      obtain rfl := Except.ok.inj h
      exact ⟨s, rfl, hR⟩
  | cons a as ih =>
      intro s t t' hR hok h
      rw [List.foldlM_cons] at h ⊢
      rw [AlongBoth] at hok
      obtain ⟨hhead, hrest⟩ := hok
      cases hg : g t a with
      | error d => rw [hg] at h; cases h
      | ok u =>
          obtain ⟨v, hf, hR'⟩ := hstep s t u a hR hhead hg
          rw [hf, hg] at hrest
          rw [hg] at h
          rw [hf]
          exact ih v u t' hR' hrest h

end Lockstep
