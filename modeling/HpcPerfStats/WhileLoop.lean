/-
# Loops without a bound

A small library for the loop `while guard s: s = body s`, which nothing but its guard ends.  It names nothing of
a particular program.

* `Ends guard body s s'` says that the loop, started in `s`, stops in `s'`;
* `ends_iff`: it stops in the first iterate of the body that fails the guard;
* `exists_ends_iff`: it stops at all exactly when some iterate fails the guard;
* `Ends.unique`: it stops in at most one state.
-/
import Mathlib.Logic.Function.Iterate
import Mathlib.Data.Nat.Find

namespace WhileLoop

variable {σ : Type*} (guard : σ → Bool) (body : σ → σ)

/-- The loop, started in the first state, stops in the second. -/
inductive Ends : σ → σ → Prop
  | stop {s : σ} (hguard : guard s = false) : Ends s s
  | again {s s' : σ} (hguard : guard s = true) (hrest : Ends (body s) s') : Ends s s'

variable {guard body}

/-- A guard that holds in the first `n` iterates lets the loop go on to the next. -/
theorem Ends.of_iterate {n : ℕ} : ∀ {s : σ}, (∀ t < n, guard (body^[t] s) = true) →
    guard (body^[n] s) = false → Ends guard body s (body^[n] s) := by
  induction n with
  | zero => exact fun _ hstop => .stop hstop
  | succ n ih =>
      intro s hguard hstop
      rw [Function.iterate_succ_apply] at hstop ⊢
      refine .again (hguard 0 (Nat.succ_pos n)) (ih ?_ hstop)
      intro t ht
      have := hguard (t + 1) (Nat.succ_lt_succ ht)
      rwa [Function.iterate_succ_apply] at this

/-- **The loop stops in the first iterate that fails the guard.** -/
theorem ends_iff {s s' : σ} : Ends guard body s s' ↔
    ∃ n, s' = body^[n] s ∧ guard (body^[n] s) = false ∧ ∀ t < n, guard (body^[t] s) = true := by
  constructor
  · intro h
    induction h with
    | stop hguard => exact ⟨0, rfl, hguard, fun t ht => absurd ht (Nat.not_lt_zero t)⟩
    | again hguard _ ih =>
        obtain ⟨n, rfl, hstop, hbefore⟩ := ih
        refine ⟨n + 1, rfl, hstop, ?_⟩
        intro t ht
        cases t with
        | zero => exact hguard
        | succ t => exact hbefore t (Nat.lt_of_succ_lt_succ ht)
  · rintro ⟨n, rfl, hstop, hbefore⟩
    exact .of_iterate hbefore hstop

/-- **The loop stops exactly when some iterate fails the guard.** -/
theorem exists_ends_iff {s : σ} : (∃ s', Ends guard body s s') ↔ ∃ n, guard (body^[n] s) = false := by
  constructor
  · rintro ⟨s', h⟩
    obtain ⟨n, -, hstop, -⟩ := ends_iff.mp h
    exact ⟨n, hstop⟩
  · intro h
    refine ⟨_, Ends.of_iterate (fun t ht => ?_) (Nat.find_spec h)⟩
    simpa using Nat.find_min h ht

theorem Ends.guard_eq {s s' : σ} (h : Ends guard body s s') : guard s' = false := by
  induction h with
  | stop hguard => exact hguard
  | again _ _ ih => exact ih

/-- The loop is deterministic. -/
theorem Ends.unique {s s₁ s₂ : σ} (h₁ : Ends guard body s s₁) (h₂ : Ends guard body s s₂) : s₁ = s₂ := by
  induction h₁ with
  | stop hguard =>
      cases h₂ with
      | stop => rfl
      | again hguard' => exact absurd (hguard.symm.trans hguard') Bool.false_ne_true
  | again hguard _ ih =>
      cases h₂ with
      | stop hguard' => exact absurd (hguard'.symm.trans hguard) Bool.false_ne_true
      | again _ hrest => exact ih hrest

end WhileLoop
