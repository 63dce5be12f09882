/-
# Copies that are saved outside the lock

A small library for a pattern of write-behind: threads change a value in memory and copy it, each under a
lock, and save the copy to disk after the lock is released.  The saves may come in another order than the
copies.  It names nothing of a particular program.

* `Ledger` has the value in memory, the document on disk and the copy that each thread holds, with the
  number of the change that each of them goes back to;
* `change`, `copy` and `save` are the three steps;
* `Inv` says where the newest value is: on disk, in a copy that is still to be saved, or still to be
  copied by a thread that has changed it;
* as long as no copy is saved over a newer one (`InOrder`), every step keeps `Inv`, and once no thread has
  anything left to do, the document on disk is the value in memory (`Inv.settled`).
-/
import Mathlib.Data.List.Basic
import Mathlib.Logic.Function.Basic

namespace SnapshotSave

variable {ι σ : Type*}

/-- What a thread still has to do: nothing, take a copy, or save the copy of a certain change. -/
inductive Phase (σ : Type*) where
  | idle
  | dirty
  | holding (version : ℕ) (copy : σ)
  deriving DecidableEq

/-- The change that a held copy goes back to. -/
def Phase.held : Phase σ → Option ℕ
  | .holding version _ => some version
  | _ => none

/-- A value in memory, its document on disk and the threads.  `version` counts the changes, `saved` is the
change that the document goes back to. -/
structure Ledger (ι σ : Type*) where
  memory : σ
  version : ℕ
  disk : σ
  saved : ℕ
  phase : ι → Phase σ

namespace Ledger

/-- Nothing has happened since the document was loaded. -/
def loaded (m : σ) : Ledger ι σ :=
  ⟨m, 0, m, 0, fun _ => .idle⟩

/-- Where the newest value is. -/
structure Inv (l : Ledger ι σ) : Prop where
  saved_le : l.saved ≤ l.version
  holding_le : ∀ i v c, l.phase i = .holding v c → v ≤ l.version
  holding_eq : ∀ i c, l.phase i = .holding l.version c → c = l.memory
  newest : (l.saved = l.version ∧ l.disk = l.memory) ∨ (∃ i, l.phase i = .dirty) ∨
    ∃ i, l.phase i = .holding l.version l.memory

theorem Inv.loaded (m : σ) : Inv (loaded m : Ledger ι σ) := by
  refine ⟨Nat.le_refl _, ?_, ?_, Or.inl ⟨rfl, rfl⟩⟩
  · intro i v c h
    cases h
  · intro i c h
    cases h

/-- **Nothing left to do.**  The document on disk is the value in memory. -/
theorem Inv.settled {l : Ledger ι σ} (h : Inv l) (hidle : ∀ i, l.phase i = .idle) :
    l.disk = l.memory := by
  rcases h.newest with ⟨-, hdisk⟩ | ⟨i, hi⟩ | ⟨i, hi⟩
  · exact hdisk
  · rw [hidle i] at hi
    cases hi
  · rw [hidle i] at hi
    cases hi

/-- **Copies that are out of date** may be exchanged for others: the newest value is not among them. -/
theorem Inv.exchange {l : Ledger ι σ} (h : Inv l) {phase : ι → Phase σ}
    (hphase : ∀ i, phase i = l.phase i ∨ ∃ u c v d, l.phase i = .holding u c ∧ u < l.version ∧
      phase i = .holding v d ∧ v < l.version) :
    Inv { l with phase := phase } := by
  refine ⟨h.saved_le, ?_, ?_, ?_⟩
  · intro i v c hi
    rcases hphase i with heq | ⟨u, c', v', d, -, -, hnew, hlt⟩
    · exact h.holding_le i v c (heq ▸ hi)
    · dsimp only at hi ⊢
      rw [hnew, Phase.holding.injEq] at hi
      omega
  · intro i c hi
    rcases hphase i with heq | ⟨u, c', v', d, -, -, hnew, hlt⟩
    · exact h.holding_eq i c (heq ▸ hi)
    · dsimp only at hi
      rw [hnew, Phase.holding.injEq] at hi
      omega
  · have hkeep : ∀ i, (∀ u c, l.phase i = .holding u c → ¬ u < l.version) → phase i = l.phase i := by
      intro i hi
      rcases hphase i with heq | ⟨u, c, v, d, hold, hlt, -, -⟩
      · exact heq
      · exact absurd hlt (hi u c hold)
    rcases h.newest with hdisk | ⟨i, hi⟩ | ⟨i, hi⟩
    · exact Or.inl hdisk
    · refine Or.inr (Or.inl ⟨i, ?_⟩)
      dsimp only
      rw [hkeep i, hi]
      intro u c hu
      rw [hi] at hu
      cases hu
    · refine Or.inr (Or.inr ⟨i, ?_⟩)
      dsimp only
      rw [hkeep i, hi]
      intro u c hu
      rw [hi, Phase.holding.injEq] at hu
      omega

/-! ## The three steps -/

section Steps

variable [DecidableEq ι]

/-- A thread changes the value. -/
def change (l : Ledger ι σ) (i : ι) (m : σ) : Ledger ι σ :=
  { l with
    memory := m
    version := l.version + 1
    phase := Function.update l.phase i .dirty }

/-- A thread copies the value. -/
def copy (l : Ledger ι σ) (i : ι) : Ledger ι σ :=
  { l with phase := Function.update l.phase i (.holding l.version l.memory) }

@[simp] theorem change_phase (l : Ledger ι σ) (i : ι) (m : σ) :
    (l.change i m).phase = Function.update l.phase i .dirty := rfl

@[simp] theorem copy_phase (l : Ledger ι σ) (i : ι) :
    (l.copy i).phase = Function.update l.phase i (.holding l.version l.memory) := rfl

/-- A thread saves its copy. -/
def save (l : Ledger ι σ) (i : ι) : Option (Ledger ι σ) :=
  match l.phase i with
  | .holding v c =>
      some { l with disk := c, saved := v, phase := Function.update l.phase i .idle }
  | _ => none

/-- The copy of the thread is not older than the document it replaces. -/
def InOrder (l : Ledger ι σ) (i : ι) : Prop :=
  ∀ v ∈ (l.phase i).held, l.saved ≤ v

instance (l : Ledger ι σ) (i : ι) : Decidable (l.InOrder i) :=
  inferInstanceAs (Decidable (∀ v ∈ (l.phase i).held, l.saved ≤ v))

/-- After a change, its thread still has to copy the value. -/
theorem Inv.change {l : Ledger ι σ} (h : Inv l) (i : ι) (m : σ) : Inv (l.change i m) := by
  have hle : ∀ j v c, (l.change i m).phase j = .holding v c → v ≤ l.version := by
    intro j v c hj
    rw [change_phase] at hj
    by_cases hji : j = i
    · subst hji
      simp at hj
    · rw [Function.update_of_ne hji] at hj
      exact h.holding_le j v c hj
  refine ⟨Nat.le_succ_of_le h.saved_le, ?_, ?_, ?_⟩
  · intro j v c hj
    exact Nat.le_succ_of_le (hle j v c hj)
  · intro j c hj
    exact absurd (hle j _ c hj) (Nat.not_succ_le_self _)
  · exact Or.inr (Or.inl ⟨i, Function.update_self ..⟩)

/-- A copy is of the newest value. -/
theorem Inv.copy {l : Ledger ι σ} (h : Inv l) (i : ι) : Inv (l.copy i) := by
  have hcases : ∀ j v c, (l.copy i).phase j = .holding v c →
      (v = l.version ∧ c = l.memory) ∨ l.phase j = .holding v c := by
    intro j v c hj
    rw [copy_phase] at hj
    by_cases hji : j = i
    · subst hji
      rw [Function.update_self, Phase.holding.injEq] at hj
      exact Or.inl ⟨hj.1.symm, hj.2.symm⟩
    · rw [Function.update_of_ne hji] at hj
      exact Or.inr hj
  refine ⟨h.saved_le, ?_, ?_, Or.inr (Or.inr ⟨i, Function.update_self ..⟩)⟩
  · intro j v c hj
    rcases hcases j v c hj with ⟨hv, -⟩ | hj
    · exact Nat.le_of_eq hv
    · exact h.holding_le j v c hj
  · intro j c hj
    rcases hcases j _ c hj with ⟨-, hc⟩ | hj
    · exact hc
    · exact h.holding_eq j c hj

/-- Who holds a copy after a thread has let go of its own held it before. -/
theorem holding_of_released {l : Ledger ι σ} {i j : ι} {u : ℕ} {d : σ}
    (h : Function.update l.phase i .idle j = .holding u d) : l.phase j = .holding u d := by
  by_cases hji : j = i
  · rw [hji, Function.update_self] at h
    cases h
  · rwa [Function.update_of_ne hji] at h

/-- The newest value is still to be saved after a thread has let go of an older one. -/
theorem pending_of_released {l : Ledger ι σ} {i : ι} {v : ℕ} {c : σ} (hi : l.phase i = .holding v c)
    (hv : v ≠ l.version)
    (h : (∃ j, l.phase j = .dirty) ∨ ∃ j, l.phase j = .holding l.version l.memory) :
    (∃ j, Function.update l.phase i .idle j = .dirty) ∨
      ∃ j, Function.update l.phase i .idle j = .holding l.version l.memory := by
  -- only the thread that lets go has another phase
  have hkeep : ∀ j, l.phase j ≠ .holding v c → Function.update l.phase i .idle j = l.phase j := by
    intro j hj
    have hji : j ≠ i := by
      rintro rfl
      exact hj hi
    exact Function.update_of_ne hji ..
  rcases h with ⟨j, hj⟩ | ⟨j, hj⟩
  · refine Or.inl ⟨j, ?_⟩
    rw [hkeep j, hj]
    rw [hj]
    exact nofun
  · refine Or.inr ⟨j, ?_⟩
    rw [hkeep j, hj]
    rw [hj]
    intro hcontra
    rw [Phase.holding.injEq] at hcontra
    exact hv hcontra.1.symm

/-- **A save in order.**  If the copy is the newest, it is on disk now; if not, the newest value was not on
disk either, and the thread that has it still has it. -/
theorem Inv.save {l l' : Ledger ι σ} (h : Inv l) {i : ι} (hok : l.InOrder i)
    (hsave : l.save i = some l') : Inv l' := by
  unfold Ledger.save at hsave
  cases hi : l.phase i with
  | idle =>
      simp only [hi] at hsave
      cases hsave
  | dirty =>
      simp only [hi] at hsave
      cases hsave
  | holding v c =>
      simp only [hi, Option.some.injEq] at hsave
      subst hsave
      have hv : l.saved ≤ v := hok v (by rw [hi]; rfl)
      have hle := h.holding_le i v c hi
      refine ⟨hle, fun j u d hj => h.holding_le j u d (holding_of_released hj),
        fun j d hj => h.holding_eq j d (holding_of_released hj), ?_⟩
      -- the copy that is saved is the newest, or the newest is still with another thread
      by_cases hnewest : v = l.version
      · subst hnewest
        exact Or.inl ⟨rfl, h.holding_eq i c hi⟩
      · right
        rcases h.newest with ⟨hsaved, -⟩ | hpending
        · omega
        · exact pending_of_released hi hnewest hpending

/-- A copy that is older than the document may be dropped. -/
theorem Inv.drop {l : Ledger ι σ} (h : Inv l) {i : ι} {v : ℕ} {c : σ} (hi : l.phase i = .holding v c)
    (hold : v < l.saved) : Inv { l with phase := Function.update l.phase i .idle } := by
  have hv : v ≠ l.version := by
    have hsaved := h.saved_le
    omega
  exact ⟨h.saved_le, fun j u d hj => h.holding_le j u d (holding_of_released hj),
    fun j d hj => h.holding_eq j d (holding_of_released hj),
    h.newest.imp_right (pending_of_released hi hv)⟩

end Steps

end Ledger

end SnapshotSave
