/-
# Runs of a partial-step transition system

A small library for systems given by a partial step function
`step : σ → α → Option σ`: `step s a = none` means that the action `a` is not
enabled in the state `s`.  It names nothing of a particular system.

* `exec step s as` performs the actions `as` one after another from `s`;
* `Respects step ok s as` says that every action of the run is taken in a state
  that meets the side condition `ok`;
* `exec_invariant` is the induction rule: what every conforming step preserves,
  every conforming run preserves; `exec_invariant_of_step` is the rule without a side condition;
* `exec_invariant_iff` is its exact form, for a side condition that decides whether a
  step preserves the invariant;
* `exec_steps_iff` is the exact rule for what every step should do;
* `exec_preorder_iff` is the exact rule for a preorder that every step should climb.

A statement about `exec step s as` for EVERY list `as` is a statement about every
state reached, since each prefix of a run is itself a run.
-/
import Mathlib.Algebra.GroupWithZero.Nat
import Mathlib.Data.List.Basic

namespace Transition

variable {σ α : Type*}

/-- Perform the actions one after another; `none` when one of them is not enabled. -/
def exec (step : σ → α → Option σ) : σ → List α → Option σ
  | s, [] => some s
  | s, a :: as => (step s a).bind fun s' => exec step s' as

/-- Every action of the run is taken in a state that meets `ok`. -/
def Respects (step : σ → α → Option σ) (ok : σ → α → Prop) : σ → List α → Prop
  | _, [] => True
  | s, a :: as => ok s a ∧ ∀ s' ∈ step s a, Respects step ok s' as

/-- With a decidable condition, a concrete run can be checked by evaluation. -/
instance Respects.decidable (step : σ → α → Option σ) (ok : σ → α → Prop)
    [∀ s a, Decidable (ok s a)] : ∀ (s : σ) (as : List α), Decidable (Respects step ok s as)
  | _, [] => isTrue trivial
  | s, a :: as =>
      letI := fun s' => Respects.decidable step ok s' as
      inferInstanceAs (Decidable (ok s a ∧ ∀ s' ∈ step s a, Respects step ok s' as))

@[simp] theorem exec_nil (step : σ → α → Option σ) (s : σ) : exec step s [] = some s := rfl

theorem exec_cons (step : σ → α → Option σ) (s : σ) (a : α) (as : List α) :
    exec step s (a :: as) = (step s a).bind fun s' => exec step s' as := rfl

theorem exec_append (step : σ → α → Option σ) (as bs : List α) : ∀ s : σ,
    exec step s (as ++ bs) = (exec step s as).bind fun s' => exec step s' bs := by
  induction as with
  | nil => exact fun s => rfl
  | cons a as ih =>
      intro s
      rw [List.cons_append, exec_cons, exec_cons, Option.bind_assoc]
      congr 1
      funext s'
      exact ih s'

/-- A run is performed action by action. -/
theorem exec_cons_some {step : σ → α → Option σ} {s t : σ} {a : α} {as : List α} :
    exec step s (a :: as) = some t ↔ ∃ s', step s a = some s' ∧ exec step s' as = some t := by
  rw [exec_cons, Option.bind_eq_some_iff]

/-- A run conforms when its first action does and the rest does from there. -/
theorem Respects.cons {step : σ → α → Option σ} {ok : σ → α → Prop} {s s' : σ} {a : α} {as : List α}
    (hstep : step s a = some s') (hok : ok s a) (hrest : Respects step ok s' as) :
    Respects step ok s (a :: as) := by
  refine ⟨hok, ?_⟩
  intro t ht
  rw [Option.mem_def, hstep] at ht
  exact Option.some.inj ht ▸ hrest

/-- A condition on the actions alone. -/
theorem respects_of_forall {step : σ → α → Option σ} {p : α → Prop} {as : List α} (h : ∀ a ∈ as, p a) :
    ∀ s, Respects step (fun _ a => p a) s as := by
  induction as with
  | nil => exact fun _ => trivial
  | cons a as ih =>
      intro s
      exact ⟨h a List.mem_cons_self, fun s' _ => ih (fun b hb => h b (List.mem_cons_of_mem a hb)) s'⟩

/-- A condition that every action of the run meets in every state. -/
theorem respects_of_forall_state {step : σ → α → Option σ} {ok : σ → α → Prop} {as : List α}
    (h : ∀ a ∈ as, ∀ s, ok s a) : ∀ s, Respects step ok s as := by
  induction as with
  | nil => exact fun _ => trivial
  | cons a as ih =>
      intro s
      exact ⟨h a List.mem_cons_self s, fun s' _ => ih (fun b hb => h b (List.mem_cons_of_mem a hb)) s'⟩

/-- The first actions of a conforming run. -/
theorem Respects.take {step : σ → α → Option σ} {ok : σ → α → Prop} {as : List α} :
    ∀ {s : σ} (n : ℕ), Respects step ok s as → Respects step ok s (as.take n) := by
  induction as with
  | nil =>
      intro s n _
      rw [List.take_nil]
      trivial
  | cons a as ih =>
      intro s n h
      cases n with
      | zero => trivial
      | succ n => exact ⟨h.1, fun s' hs' => ih n (h.2 s' hs')⟩

/-- An action of a conforming run conforms where it is taken. -/
theorem Respects.at_step {step : σ → α → Option σ} {ok : σ → α → Prop} {as : List α} {a : α} {u : σ} :
    ∀ {s : σ} {n : ℕ}, Respects step ok s as → exec step s (as.take n) = some u → as[n]? = some a → ok u a := by
  induction as with
  | nil =>
      intro s n _ _ ha
      cases ha
  | cons b as ih =>
      intro s n h hrun ha
      cases n with
      | zero =>
          obtain rfl := Option.some.inj hrun
          obtain rfl := Option.some.inj ha
          exact h.1
      | succ n =>
          obtain ⟨s', hstep, hrest⟩ := exec_cons_some.mp hrun
          exact ih (h.2 s' hstep) hrest ha

/-- A weaker condition on these actions. -/
theorem Respects.mono {step : σ → α → Option σ} {ok ok' : σ → α → Prop} {as : List α} :
    ∀ {s : σ}, Respects step ok s as → (∀ s, ∀ a ∈ as, ok s a → ok' s a) → Respects step ok' s as := by
  induction as with
  | nil => exact fun _ _ => trivial
  | cons a as ih =>
      intro s h hmono
      refine ⟨hmono s a List.mem_cons_self h.1, fun s' hs' => ih (h.2 s' hs') ?_⟩
      exact fun s b hb => hmono s b (List.mem_cons_of_mem a hb)

/-- Two conditions at once. -/
theorem Respects.and {step : σ → α → Option σ} {ok ok' : σ → α → Prop} {as : List α} :
    ∀ {s : σ}, Respects step ok s as → Respects step ok' s as →
      Respects step (fun s a => ok s a ∧ ok' s a) s as := by
  induction as with
  | nil => exact fun _ _ => trivial
  | cons a as ih =>
      intro s h h'
      exact ⟨⟨h.1, h'.1⟩, fun s' hs' => ih (h.2 s' hs') (h'.2 s' hs')⟩

/-- **The run rule.**  An invariant that every conforming step preserves holds at
the end of every conforming run. -/
theorem exec_invariant {step : σ → α → Option σ} {ok : σ → α → Prop} {I : σ → Prop}
    (hstep : ∀ s a s', I s → ok s a → step s a = some s' → I s') :
    ∀ (as : List α) (s t : σ), I s → Respects step ok s as →
      exec step s as = some t → I t := by
  intro as
  induction as with
  | nil =>
      intro s t hs _ hrun
      rw [exec_nil] at hrun
      cases hrun
      exact hs
  | cons a as ih =>
      intro s t hs hok hrun
      obtain ⟨s', hs', hrest⟩ := exec_cons_some.mp hrun
      exact ih s' t (hstep s a s' hs hok.1 hs') (hok.2 s' hs') hrest

/-- The run rule for an invariant that every step preserves. -/
theorem exec_invariant_of_step {step : σ → α → Option σ} {I : σ → Prop}
    (hstep : ∀ s a s', I s → step s a = some s' → I s') :
    ∀ (as : List α) (s t : σ), I s → exec step s as = some t → I t := by
  intro as
  induction as with
  | nil =>
      intro s t hs hrun
      rw [exec_nil] at hrun
      cases hrun
      exact hs
  | cons a as ih =>
      intro s t hs hrun
      obtain ⟨s', hs', hrest⟩ := exec_cons_some.mp hrun
      exact ih s' t (hstep s a s' hs hs') hrest

/-- **The exact run rule.**  When the side condition decides whether a step preserves the invariant,
the invariant holds in every state of a run exactly when the run meets the condition. -/
theorem exec_invariant_iff {step : σ → α → Option σ} {ok : σ → α → Prop} {I : σ → Prop}
    (hstep : ∀ s a s', I s → step s a = some s' → (I s' ↔ ok s a))
    (hnone : ∀ s a, step s a = none → ok s a) :
    ∀ (as : List α) (s : σ), I s →
      ((∀ n t, exec step s (as.take n) = some t → I t) ↔ Respects step ok s as) := by
  intro as
  induction as with
  | nil =>
      intro s hs
      constructor
      · intro _
        trivial
      · intro _ n t hrun
        rw [List.take_nil, exec_nil] at hrun
        exact Option.some.inj hrun ▸ hs
  | cons a as ih =>
      intro s hs
      constructor
      · intro hall
        constructor
        · rcases hnext : step s a with _ | s'
          · exact hnone s a hnext
          · apply (hstep s a s' hs hnext).mp
            apply hall 1
            rw [List.take_succ_cons, List.take_zero, exec_cons, hnext]
            rfl
        · intro s' hnext
          have hs' : I s' := by
            apply hall 1
            rw [List.take_succ_cons, List.take_zero, exec_cons, hnext]
            rfl
          apply (ih s' hs').mp
          intro n t hrun
          apply hall (n + 1)
          rw [List.take_succ_cons, exec_cons, hnext]
          exact hrun
      · rintro ⟨hok, hrest⟩ n t hrun
        cases n with
        | zero =>
            rw [List.take_zero, exec_nil] at hrun
            exact Option.some.inj hrun ▸ hs
        | succ n =>
            rw [List.take_succ_cons] at hrun
            obtain ⟨s', hnext, hrun⟩ := exec_cons_some.mp hrun
            exact (ih s' ((hstep s a s' hs hnext).mpr hok)).mpr (hrest s' hnext) n t hrun

/-- **The exact rule for what every step should do.**  When the side condition decides whether a step does
it, and the steps that do it keep the invariant, every step of a run does it exactly when the run meets
the condition. -/
theorem exec_steps_iff {step : σ → α → Option σ} {ok : σ → α → Prop} {I : σ → Prop}
    {Q : σ → α → σ → Prop}
    (hstep : ∀ s a s', I s → step s a = some s' → (Q s a s' ↔ ok s a))
    (hkeep : ∀ s a s', I s → ok s a → step s a = some s' → I s')
    (hnone : ∀ s a, step s a = none → ok s a) :
    ∀ (as : List α) (s : σ), I s →
      ((∀ n a t t', as[n]? = some a → exec step s (as.take n) = some t → step t a = some t' →
        Q t a t') ↔ Respects step ok s as) := by
  intro as
  induction as with
  | nil =>
      intro s _
      constructor
      · intro _
        trivial
      · intro _ n a t t' ha
        rw [List.getElem?_nil] at ha
        cases ha
  | cons a as ih =>
      intro s hs
      constructor
      · intro hall
        have hfirst : ∀ s', step s a = some s' → ok s a := by
          intro s' hnext
          exact (hstep s a s' hs hnext).mp (hall 0 a s s' rfl rfl hnext)
        constructor
        · rcases hnext : step s a with _ | s'
          · exact hnone s a hnext
          · exact hfirst s' hnext
        · intro s' hnext
          apply (ih s' (hkeep s a s' hs (hfirst s' hnext) hnext)).mp
          intro n b t t' hb ht hstep'
          apply hall (n + 1) b t t' hb ?_ hstep'
          rw [List.take_succ_cons, exec_cons, hnext]
          exact ht
      · rintro ⟨hok, hrest⟩ n b t t' hb ht hstep'
        cases n with
        | zero =>
            rw [List.take_zero, exec_nil] at ht
            obtain rfl := Option.some.inj ht
            obtain rfl := Option.some.inj hb
            exact (hstep _ _ t' hs hstep').mpr hok
        | succ n =>
            rw [List.take_succ_cons] at ht
            obtain ⟨s', hnext, ht⟩ := exec_cons_some.mp ht
            exact (ih s' (hkeep s a s' hs hok hnext)).mpr (hrest s' hnext) n b t t' hb ht hstep'

/-- **The exact run rule for a relation.**  When the side condition decides whether a step goes to a later
state in a preorder, and what goes on keeps the invariant, a run only ever goes on exactly when it meets
the condition. -/
theorem exec_preorder_iff {step : σ → α → Option σ} {ok : σ → α → Prop} {I : σ → Prop}
    {R : σ → σ → Prop} (hrefl : ∀ s, R s s) (htrans : ∀ {s t u}, R s t → R t u → R s u)
    (hstep : ∀ s a s', I s → step s a = some s' → (R s s' ↔ ok s a))
    (hkeep : ∀ s a s', I s → R s s' → step s a = some s' → I s')
    (hnone : ∀ s a, step s a = none → ok s a) :
    ∀ (as : List α) (s : σ), I s →
      ((∀ n m t u, n ≤ m → exec step s (as.take n) = some t → exec step s (as.take m) = some u →
        R t u) ↔ Respects step ok s as) := by
  intro as
  induction as with
  | nil =>
      intro s hs
      constructor
      · intro _
        trivial
      · intro _ n m t u _ ht hu
        rw [List.take_nil, exec_nil, Option.some.injEq] at ht hu
        rw [← ht, ← hu]
        exact hrefl s
  | cons a as ih =>
      intro s hs
      constructor
      · intro hall
        -- the first step is the part of the run between its first two prefixes
        have hfirst : ∀ s', step s a = some s' → R s s' := by
          intro s' hnext
          apply hall 0 1 s s' (Nat.zero_le 1) rfl
          rw [List.take_succ_cons, List.take_zero, exec_cons, hnext]
          rfl
        constructor
        · rcases hnext : step s a with _ | s'
          · exact hnone s a hnext
          · exact (hstep s a s' hs hnext).mp (hfirst s' hnext)
        · intro s' hnext
          apply (ih s' (hkeep s a s' hs (hfirst s' hnext) hnext)).mp
          intro n m t u hnm ht hu
          apply hall (n + 1) (m + 1) t u (Nat.succ_le_succ hnm)
          · rw [List.take_succ_cons, exec_cons, hnext]
            exact ht
          · rw [List.take_succ_cons, exec_cons, hnext]
            exact hu
      · rintro ⟨hok, hrest⟩ n m t u hnm ht hu
        -- what is reached from the first state on is later than the start
        have hlater : ∀ k v, exec step s ((a :: as).take (k + 1)) = some v →
            ∃ s', step s a = some s' ∧ R s s' ∧ I s' ∧ exec step s' (as.take k) = some v := by
          intro k v hv
          rw [List.take_succ_cons] at hv
          obtain ⟨s', hnext, hv⟩ := exec_cons_some.mp hv
          have hR : R s s' := (hstep s a s' hs hnext).mpr hok
          exact ⟨s', hnext, hR, hkeep s a s' hs hR hnext, hv⟩
        cases m with
        | zero =>
            obtain rfl : n = 0 := Nat.le_zero.mp hnm
            rw [ht, Option.some.injEq] at hu
            rw [hu]
            exact hrefl u
        | succ m =>
            obtain ⟨s', hnext, hR, hI, hu⟩ := hlater m u hu
            have hall := (ih s' hI).mpr (hrest s' hnext)
            cases n with
            | zero =>
                rw [List.take_zero, exec_nil, Option.some.injEq] at ht
                rw [← ht]
                exact htrans hR (hall 0 m s' u (Nat.zero_le m) rfl hu)
            | succ n =>
                obtain ⟨s'', hnext', -, -, ht⟩ := hlater n t ht
                rw [hnext, Option.some.injEq] at hnext'
                subst hnext'
                exact hall n m t u (Nat.le_of_succ_le_succ hnm) ht hu

/-! ## Numbering the parties -/

-- The parties of a concrete run are literals of `Fin n`.  With these instances by name such a run is the same term in
-- every module that it is written in.

scoped instance neZeroOne : NeZero 1 := ⟨Nat.one_ne_zero⟩

scoped instance neZeroTwo : NeZero 2 := ⟨Nat.succ_ne_zero 1⟩

scoped instance neZeroThree : NeZero 3 := ⟨Nat.succ_ne_zero 2⟩

end Transition
