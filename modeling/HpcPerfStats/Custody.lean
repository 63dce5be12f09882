/-
# Custody of jobs

A ledger says of every job whether it is absent, queued, or held under the token of a claim.  A job moves in
four ways: it is queued, it is claimed, and a claim is settled or given back.  A run that moves jobs in no
other way loses none of them: a job that is gone was settled, and a claim that no longer holds was settled
or given back.

`InHand` says of a list of claims that the ledger has every one of them as held; `Accounted` says that it has
no others.  Each has one rule for a step that leaves the jobs of the list alone, one for a claim that joins the
list and one for a claim that leaves it.
-/
import HpcPerfStats.Transition
import Mathlib.Data.List.Nodup

namespace Custody

open Transition

variable {J T : Type*}

/-- Where a job is. -/
inductive Status (T : Type*) where
  | absent
  | queued
  | held (token : T)
  deriving DecidableEq

/-- One move of a job, or none. -/
inductive Status.Moves : Status T → Status T → Prop where
  | stay (c : Status T) : Moves c c
  | enqueue : Moves .absent .queued
  | claim (token : T) : Moves .queued (.held token)
  | settle (token : T) : Moves (.held token) .absent
  | giveBack (token : T) : Moves (.held token) .queued

theorem Status.Moves.of_eq {c d : Status T} (h : d = c) : c.Moves d :=
  h ▸ .stay c

/-- A job that is gone was held and has been settled. -/
theorem Status.Moves.settled {c : Status T} (h : c.Moves .absent) (hc : c ≠ .absent) : ∃ token, c = .held token := by
  cases h with
  | stay => exact absurd rfl hc
  | settle token => exact ⟨token, rfl⟩

/-- A claim that no longer holds has been settled or given back. -/
theorem Status.Moves.released {token : T} {d : Status T} (h : Status.Moves (.held token) d)
    (hd : d ≠ .held token) : d = .absent ∨ d = .queued := by
  cases h with
  | stay => exact absurd rfl hd
  | settle => exact Or.inl rfl
  | giveBack => exact Or.inr rfl

/-! ## Runs -/

variable {σ α : Type*} {step : σ → α → Option σ} {ledger : σ → J → Status T}

/-- The first step of a run after which a property of the state fails. -/
theorem exists_first_step {P : σ → Prop} : ∀ {as : List α} {s t : σ}, P s → exec step s as = some t → ¬ P t →
    ∃ n a u u', as[n]? = some a ∧ exec step s (as.take n) = some u ∧ step u a = some u' ∧ P u ∧ ¬ P u' := by
  intro as
  induction as with
  | nil =>
      intro s t hs hrun ht
      rw [exec_nil, Option.some.injEq] at hrun
      exact absurd (hrun ▸ hs) ht
  | cons a as ih =>
      intro s t hs hrun ht
      obtain ⟨s', hs', hrest⟩ := exec_cons_some.mp hrun
      by_cases hP : P s'
      · obtain ⟨n, b, u, u', hb, hu, hstep, hPu, hPu'⟩ := ih hP hrest ht
        refine ⟨n + 1, b, u, u', hb, ?_, hstep, hPu, hPu'⟩
        rw [List.take_succ_cons]
        exact exec_cons_some.mpr ⟨s', hs', hu⟩
      · exact ⟨0, a, s, s', rfl, rfl, hs', hs, hP⟩

/-- **No job is lost.**  A job that a run leaves absent was held at some step, which settled it. -/
theorem settled_of_exec {j : J} {as : List α} {s t : σ}
    (hmoves : ∀ a ∈ as, ∀ s s', step s a = some s' → (ledger s j).Moves (ledger s' j))
    (hs : ledger s j ≠ .absent) (hrun : exec step s as = some t) (ht : ledger t j = .absent) :
    ∃ n a u u' token, as[n]? = some a ∧ exec step s (as.take n) = some u ∧ step u a = some u' ∧
      ledger u j = .held token ∧ ledger u' j = .absent := by
  obtain ⟨n, a, u, u', ha, hu, hstep, hPu, hPu'⟩ :=
    exists_first_step (P := fun s => ledger s j ≠ .absent) hs hrun (fun h => h ht)
  have hgone : ledger u' j = .absent := not_not.mp hPu'
  have hmove := hmoves a (List.mem_of_getElem? ha) u u' hstep
  obtain ⟨token, htoken⟩ := Status.Moves.settled (hgone ▸ hmove) hPu
  exact ⟨n, a, u, u', token, ha, hu, hstep, htoken, hgone⟩

/-- **A claim is exclusive.**  When a job is no longer held under the token of a claim, the claim was settled or
given back in between. -/
theorem released_of_exec {j : J} {as : List α} {s t : σ} {token : T}
    (hmoves : ∀ a ∈ as, ∀ s s', step s a = some s' → (ledger s j).Moves (ledger s' j))
    (hs : ledger s j = .held token) (hrun : exec step s as = some t) (ht : ledger t j ≠ .held token) :
    ∃ n a u u', as[n]? = some a ∧ exec step s (as.take n) = some u ∧ step u a = some u' ∧
      ledger u j = .held token ∧ (ledger u' j = .absent ∨ ledger u' j = .queued) := by
  obtain ⟨n, a, u, u', ha, hu, hstep, hPu, hPu'⟩ :=
    exists_first_step (P := fun s => ledger s j = .held token) hs hrun ht
  have hmove := hmoves a (List.mem_of_getElem? ha) u u' hstep
  exact ⟨n, a, u, u', ha, hu, hstep, hPu, Status.Moves.released (hPu ▸ hmove) hPu'⟩

/-! ## Claims in hand -/

/-- The ledger has every claim of the list as held, and no job is claimed twice. -/
structure InHand (book : J → Status T) (hands : List (J × T)) : Prop where
  nodup : (hands.map Prod.fst).Nodup
  held : ∀ c ∈ hands, book c.1 = .held c.2

/-- Every claim that the ledger has as held is in the list. -/
def Accounted (book : J → Status T) (hands : List (J × T)) : Prop :=
  ∀ j token, book j = .held token → (j, token) ∈ hands

section Hands

variable {book book' : J → Status T} {hands hands' cs : List (J × T)} {c : J × T}

theorem inHand_nil : InHand book [] :=
  ⟨List.nodup_nil, fun _ hc => absurd hc List.not_mem_nil⟩

theorem InHand.perm (h : InHand book hands) (hp : hands.Perm hands') : InHand book hands' :=
  ⟨(hp.map Prod.fst).nodup_iff.mp h.nodup, fun c hc => h.held c (hp.mem_iff.mpr hc)⟩

theorem InHand.sublist (h : InHand book hands) (hs : hands'.Sublist hands) : InHand book hands' :=
  ⟨h.nodup.sublist (hs.map Prod.fst), fun c hc => h.held c (hs.subset hc)⟩

/-- A step that leaves the claims of the list alone. -/
theorem InHand.frame (h : InHand book hands)
    (hbook : ∀ c ∈ hands, book c.1 = .held c.2 → book' c.1 = .held c.2) : InHand book' hands :=
  ⟨h.nodup, fun c hc => hbook c hc (h.held c hc)⟩

/-- Claims of jobs that were not held join the list. -/
theorem InHand.claim (h : InHand book hands) (hcs : InHand book' cs)
    (hfree : ∀ c ∈ cs, ∀ token, book c.1 ≠ .held token)
    (hbook : ∀ c ∈ hands, book c.1 = .held c.2 → book' c.1 = .held c.2) : InHand book' (cs ++ hands) := by
  refine ⟨?_, ?_⟩
  · rw [List.map_append, List.nodup_append]
    refine ⟨hcs.nodup, h.nodup, ?_⟩
    rintro j hj j' hj' rfl
    obtain ⟨c, hc, rfl⟩ := List.mem_map.mp hj
    obtain ⟨d, hd, hcd⟩ := List.mem_map.mp hj'
    exact hfree c hc d.2 (hcd ▸ h.held d hd)
  · intro c hc
    rcases List.mem_append.mp hc with hc | hc
    · exact hcs.held c hc
    · exact hbook c hc (h.held c hc)

/-- A claim leaves the list, and with it its job may change. -/
theorem InHand.drop (h : InHand book (c :: hands))
    (hbook : ∀ j token, j ≠ c.1 → book j = .held token → book' j = .held token) : InHand book' hands := by
  obtain ⟨hnot, hnodup⟩ := List.nodup_cons.mp h.nodup
  refine ⟨hnodup, fun d hd => ?_⟩
  have hne : d.1 ≠ c.1 := by
    intro heq
    exact hnot (heq ▸ List.mem_map_of_mem hd)
  exact hbook d.1 d.2 hne (h.held d (List.mem_cons_of_mem c hd))

theorem Accounted.mono (h : Accounted book hands) (hsub : hands ⊆ hands') : Accounted book hands' :=
  fun j token hj => hsub (h j token hj)

/-- A step that makes no job held that was not. -/
theorem Accounted.frame (h : Accounted book hands)
    (hbook : ∀ j token, book' j = .held token → book j = .held token) : Accounted book' hands :=
  fun j token hj => h j token (hbook j token hj)

/-- Claims join the list. -/
theorem Accounted.claim (h : Accounted book hands)
    (hbook : ∀ j token, book' j = .held token → (j, token) ∈ cs ∨ book j = .held token) :
    Accounted book' (cs ++ hands) := by
  intro j token hj
  rcases hbook j token hj with hmem | hold
  · exact List.mem_append_left _ hmem
  · exact List.mem_append_right _ (h j token hold)

/-- A claim leaves the list with its job. -/
theorem Accounted.drop (h : Accounted book (c :: hands)) (hgone : ∀ token, book' c.1 ≠ .held token)
    (hbook : ∀ j token, j ≠ c.1 → book' j = .held token → book j = .held token) : Accounted book' hands := by
  intro j token hj
  by_cases hc : j = c.1
  · exact absurd (hc ▸ hj) (hgone token)
  · rcases List.mem_cons.mp (h j token (hbook j token hc hj)) with hmem | hmem
    · exact absurd (congrArg Prod.fst hmem) hc
    · exact hmem

end Hands

end Custody
