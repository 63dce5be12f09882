/-
# Runs of the sliding metrics session

* `Placed` is the invariant of the main loop: every selected ref waits, is in flight or has its result;
* `Fills` and `Handled` say what the submission of work and the handling of a result can do;
* `Session.weight` counts the phases that are to come.

The main result is `reports_iff`: a session that returns reports its refs exactly when its turns are clean,
and it returns unless it only waits.
-/
import Mathlib.Data.List.Count
import HpcPerfStats.SlidingSession

namespace SlidingSession

open IdleSlotSupplement

/-! ## Bookkeeping -/

/-- The log entry an item in its prewarm has. -/
def Item.saved (item : Item) : Option (Ref × Bool) :=
  match item.phase with
  | .metrics => none
  | .prewarm _ _ => some (item.ref, true)

/-- The phases an item still has to pass. -/
def Item.weight (item : Item) : ℕ :=
  match item.phase with
  | .metrics => 2
  | .prewarm _ _ => 1

def Row.pair (row : Row) : Ref × Bool := (row.ref, row.ok)

/-- The phases that are still to come. -/
def Session.weight (s : Session) : ℕ :=
  2 * (s.primary.length + s.ready.length) + (s.pending.map Item.weight).sum

/-- The refs a pop may take. -/
def Below (c : Config) (ref : Ref) : Prop := sampleCountForRef ref < hardLimit c.softMax c.hardMax

/-- The invariant of the main loop: every selected ref is in one place, and the log of the persist outcomes
is made up of the results and of the items in their prewarm, the refs that failed before their persist call
apart. -/
structure Placed (c : Config) (primaryRefs readyQueue : List Ref) (s : Session) : Prop where
  refs : (primaryRefs ++ s.popped).Perm
    (s.primary ++ s.pending.map Item.ref ++ s.results.map Row.ref)
  outcomes : ∃ unpersisted : List Ref,
    (s.results.map Row.pair ++ s.pending.filterMap Item.saved).Perm
      (s.persisted ++ unpersisted.map fun ref => (ref, false))
  queue : Extracts (Below c) readyQueue s.popped s.ready

/-- Nothing is in its prewarm exactly when the log has no entry without its result. -/
theorem filterMap_saved_eq_nil {pending : List Item} :
    pending.filterMap Item.saved = [] ↔ ∀ item ∈ pending, item.phase = .metrics := by
  rw [List.filterMap_eq_nil_iff]
  constructor
  · intro h item hitem
    have hsaved := h item hitem
    unfold Item.saved at hsaved
    split at hsaved
    · assumption
    · cases hsaved
  · intro h item hitem
    rw [Item.saved, h item hitem]

/-- Work in progress is at least one phase. -/
theorem one_le_weight (item : Item) : 1 ≤ item.weight := by
  unfold Item.weight
  split
  · omega
  · omega

/-! ## Submitting work -/

/-- What the two loops that submit work do: `started` leaves the primary refs, `taken` the ready queue, and
both go to the end of `pending`. -/
structure Fills (c : Config) (s t : Session) (started taken : List Ref) (items : List Item) : Prop where
  primary : s.primary = started ++ t.primary
  queue : Extracts (Below c) s.ready taken t.ready
  popped : t.popped = s.popped ++ taken
  pending : t.pending = s.pending ++ items
  refs : items.map Item.ref = started ++ taken
  metrics : ∀ item ∈ items, item.phase = .metrics
  results : t.results = s.results
  persisted : t.persisted = s.persisted

theorem Fills.refl (c : Config) (s : Session) : Fills c s s [] [] [] :=
  ⟨rfl, Extracts.refl s.ready, (List.append_nil _).symm, (List.append_nil _).symm, rfl, by simp, rfl, rfl⟩

/-- Primary refs go in before anything is taken off the queue. -/
theorem Fills.trans {c : Config} {s t u : Session} {started taken taken' : List Ref}
    {items items' : List Item} (h : Fills c s t started taken items) (h' : Fills c t u [] taken' items') :
    Fills c s u started (taken ++ taken') (items ++ items') where
  primary := by rw [h.primary, h'.primary, List.nil_append]
  queue := h.queue.trans h'.queue
  popped := by rw [h'.popped, h.popped, List.append_assoc]
  pending := by rw [h'.pending, h.pending, List.append_assoc]
  refs := by rw [List.map_append, h.refs, h'.refs, List.nil_append, List.append_assoc]
  metrics := by
    intro item hitem
    rcases List.mem_append.mp hitem with hitem | hitem
    · exact h.metrics item hitem
    · exact h'.metrics item hitem
  results := h'.results.trans h.results
  persisted := h'.persisted.trans h.persisted

theorem map_ref_submitMetrics (isOriginal : Bool) (refs : List Ref) :
    (refs.map (submitMetrics isOriginal)).map Item.ref = refs := by
  rw [List.map_map]
  exact List.map_id refs

theorem phase_submitMetrics {isOriginal : Bool} {refs : List Ref} :
    ∀ item ∈ refs.map (submitMetrics isOriginal), item.phase = .metrics := by
  intro item hitem
  obtain ⟨ref, _, rfl⟩ := List.mem_map.mp hitem
  rfl

/-- The first loop moves a prefix of the primary refs. -/
theorem fillPrimary_eq (cap : ℕ) (primary : List Ref) : ∀ pending : List Item,
    ∃ started, primary = started ++ (fillPrimary cap pending primary).1 ∧
      (fillPrimary cap pending primary).2 = pending ++ started.map (submitMetrics true) := by
  induction primary with
  | nil => exact fun pending => ⟨[], rfl, (List.append_nil pending).symm⟩
  | cons ref primary ih =>
      intro pending
      rw [fillPrimary]
      split
      · obtain ⟨started, hprimary, hpending⟩ := ih (pending ++ [submitMetrics true ref])
        refine ⟨ref :: started, ?_, ?_⟩
        · rw [List.cons_append, ← hprimary]
        · rw [hpending, List.append_assoc, List.map_cons, List.singleton_append]
      · exact ⟨[], rfl, (List.append_nil pending).symm⟩

theorem takeSupplements_fills (c : Config) (s : Session) :
    Fills c s (takeSupplements c s) [] (popIdleSlotSupplements c s).1
      ((popIdleSlotSupplements c s).1.map (submitMetrics false)) where
  primary := rfl
  queue := (extracts_pop s.ready _ c.softMax c.hardMax true).1
  popped := rfl
  pending := rfl
  refs := map_ref_submitMetrics false _
  metrics := phase_submitMetrics
  results := rfl
  persisted := rfl

theorem fillSupplements_fills (c : Config) (rounds : ℕ) : ∀ s : Session,
    ∃ taken items, Fills c s (fillSupplements c rounds s) [] taken items := by
  induction rounds with
  | zero => exact fun s => ⟨[], [], Fills.refl c s⟩
  | succ rounds ih =>
      intro s
      rw [fillSupplements]
      split_ifs with hwants hempty
      · exact ⟨_, _, takeSupplements_fills c s⟩
      · obtain ⟨taken, items, hrest⟩ := ih (takeSupplements c s)
        exact ⟨_, _, (takeSupplements_fills c s).trans hrest⟩
      · exact ⟨[], [], Fills.refl c s⟩

/-- The free slots bound the rounds of the second loop: it ends because it wants nothing more, or because
the queue has nothing to give. -/
theorem fillSupplements_stops (c : Config) (rounds : ℕ) : ∀ s : Session,
    c.cap - s.pending.length ≤ rounds →
      wantsSupplements c (fillSupplements c rounds s) = false ∨
        ∃ t, fillSupplements c rounds s = takeSupplements c t ∧ (popIdleSlotSupplements c t).1 = [] := by
  induction rounds with
  | zero =>
      intro s hrounds
      left
      have hfull : decide (s.pending.length < c.cap) = false := by
        rw [decide_eq_false_iff_not]
        omega
      rw [fillSupplements, wantsSupplements, hfull, Bool.and_false, Bool.false_and, Bool.false_and]
  | succ rounds ih =>
      intro s hrounds
      rw [fillSupplements]
      split_ifs with hwants hempty
      · exact Or.inr ⟨s, rfl, List.isEmpty_iff.mp hempty⟩
      · -- a round that took something leaves fewer free slots
        apply ih
        have htaken : 0 < (popIdleSlotSupplements c s).1.length := by
          rw [List.length_pos_iff]
          exact fun hnil => hempty (by rw [hnil]; rfl)
        have hlen : (takeSupplements c s).pending.length
            = s.pending.length + (popIdleSlotSupplements c s).1.length := by
          rw [(takeSupplements_fills c s).pending, List.length_append, List.length_map]
        omega
      · exact Or.inl (by simpa using hwants)

/-- The submission ends as the second loop does. -/
theorem fill_stops (c : Config) (s : Session) :
    wantsSupplements c (fill c s) = false ∨
      ∃ t, fill c s = takeSupplements c t ∧ (popIdleSlotSupplements c t).1 = [] :=
  fillSupplements_stops c _ _ le_rfl

/-- **What the submission of work does.** -/
theorem fill_fills (c : Config) (s : Session) :
    ∃ started taken items, Fills c s (fill c s) started taken items := by
  obtain ⟨started, hprimary, hpending⟩ := fillPrimary_eq c.cap s.primary s.pending
  have hfirst : Fills c s { s with
      primary := (fillPrimary c.cap s.pending s.primary).1
      pending := (fillPrimary c.cap s.pending s.primary).2 } started [] (started.map (submitMetrics true)) :=
    { primary := hprimary
      queue := Extracts.refl s.ready
      popped := (List.append_nil _).symm
      pending := hpending
      refs := by rw [map_ref_submitMetrics, List.append_nil]
      metrics := phase_submitMetrics
      results := rfl
      persisted := rfl }
  obtain ⟨taken, items, hsecond⟩ := fillSupplements_fills c
    (c.cap - (fillPrimary c.cap s.pending s.primary).2.length) { s with
      primary := (fillPrimary c.cap s.pending s.primary).1
      pending := (fillPrimary c.cap s.pending s.primary).2 }
  exact ⟨_, _, _, hfirst.trans hsecond⟩

/-- With work to do, something is in flight after the submission. -/
theorem pending_fill_ne_nil (c : Config) {s : Session} (hwork : s.hasWork = true) :
    (fill c s).pending ≠ [] := by
  have hfirst : (fillPrimary c.cap s.pending s.primary).2 ≠ [] := by
    obtain ⟨started, hprimary, hpending⟩ := fillPrimary_eq c.cap s.primary s.pending
    rw [hpending]
    intro hnil
    obtain ⟨hnone, hstarted⟩ := List.append_eq_nil_iff.mp hnil
    rcases hrefs : s.primary with _ | ⟨ref, primary⟩
    · rw [Session.hasWork, hnone, hrefs] at hwork
      cases hwork
    · -- the first slot is free and takes the first primary ref
      have hcap := c.one_le_cap
      rw [List.map_eq_nil_iff.mp hstarted, hnone, hrefs, fillPrimary,
        if_pos (by rw [List.length_nil]; omega), List.nil_append] at hprimary
      obtain ⟨more, hmore, _⟩ := fillPrimary_eq c.cap primary ([] ++ [submitMetrics true ref])
      have hlen := congrArg List.length hprimary
      have hlen' := congrArg List.length hmore
      rw [List.length_cons] at hlen
      rw [List.length_append] at hlen'
      omega
  obtain ⟨taken, items, hsecond⟩ := fillSupplements_fills c
    (c.cap - (fillPrimary c.cap s.pending s.primary).2.length) { s with
      primary := (fillPrimary c.cap s.pending s.primary).1
      pending := (fillPrimary c.cap s.pending s.primary).2 }
  intro hnil
  have hpending := hsecond.pending
  rw [fill] at hnil
  rw [hnil] at hpending
  exact hfirst (List.append_eq_nil_iff.mp hpending.symm).1

section Submission

variable {c : Config} {s t : Session} {started taken : List Ref} {items : List Item}

theorem Fills.filterMap_saved (h : Fills c s t started taken items) :
    t.pending.filterMap Item.saved = s.pending.filterMap Item.saved := by
  rw [h.pending, List.filterMap_append, filterMap_saved_eq_nil.mpr h.metrics, List.append_nil]

/-- Submitting work keeps the invariant. -/
theorem Placed.fills {primaryRefs readyQueue : List Ref} (hs : Placed c primaryRefs readyQueue s)
    (h : Fills c s t started taken items) : Placed c primaryRefs readyQueue t where
  refs := by
    rw [List.perm_iff_count]
    intro ref
    have hplaced := hs.refs.count_eq ref
    rw [h.popped, h.pending, h.results, List.map_append, h.refs]
    rw [h.primary] at hplaced
    simp only [List.count_append] at hplaced ⊢
    omega
  outcomes := by
    rw [h.filterMap_saved, h.results, h.persisted]
    exact hs.outcomes
  queue := by
    rw [h.popped]
    exact hs.queue.trans h.queue

theorem sum_weight_metrics : ∀ items : List Item, (∀ item ∈ items, item.phase = .metrics) →
    (items.map Item.weight).sum = 2 * items.length := by
  intro items
  induction items with
  | nil => exact fun _ => rfl
  | cons item items ih =>
      intro hmetrics
      have hitem : item.weight = 2 := by rw [Item.weight, hmetrics item List.mem_cons_self]
      have hrest := ih fun i hi => hmetrics i (List.mem_cons_of_mem item hi)
      rw [List.map_cons, List.sum_cons, hitem, hrest, List.length_cons]
      omega

/-- Submitting work is no progress: what leaves the two queues is pending with both phases to come. -/
theorem Fills.weight_eq (h : Fills c s t started taken items) : t.weight = s.weight := by
  have hprimary := congrArg List.length h.primary
  have hready := h.queue.shares.length_eq
  have hitems := congrArg List.length h.refs
  rw [List.length_append] at hprimary hready hitems
  rw [List.length_map] at hitems
  rw [Session.weight, Session.weight, h.pending, List.map_append, List.sum_append,
    sum_weight_metrics items h.metrics]
  omega

end Submission

/-! ## A result that is ready -/

/-- The item whose result is taken is one of the pending ones, the others stay. -/
theorem takeReady_perm {pending : List Item} : ∀ {ready : ℕ → Bool} {item : Item} {rest : List Item},
    takeReady ready pending = some (item, rest) → pending.Perm (item :: rest) := by
  induction pending with
  | nil =>
      intro ready item rest h
      cases h
  | cons first pending ih =>
      intro ready item rest h
      rw [takeReady] at h
      split_ifs at h with hfirst
      · cases h
        exact List.Perm.refl _
      · obtain ⟨⟨found, others⟩, hfound, heq⟩ := Option.map_eq_some_iff.mp h
        cases heq
        exact ((ih hfound).cons first).trans (List.Perm.swap found first others)

section Handling

variable {c : Config} {primaryRefs readyQueue : List Ref} {s t : Session}

/-- A step that leaves the queues alone keeps the invariant when it moves refs from `pending` to `results`
and logs what it persists. -/
theorem Placed.settle (hs : Placed c primaryRefs readyQueue s) (hprimary : t.primary = s.primary)
    (hready : t.ready = s.ready) (hpopped : t.popped = s.popped)
    (hrefs : (t.pending.map Item.ref ++ t.results.map Row.ref).Perm
      (s.pending.map Item.ref ++ s.results.map Row.ref))
    (failed : List Ref)
    (hlog : (t.results.map Row.pair ++ t.pending.filterMap Item.saved ++ s.persisted).Perm
      (s.results.map Row.pair ++ s.pending.filterMap Item.saved ++
        (t.persisted ++ failed.map fun ref => (ref, false)))) :
    Placed c primaryRefs readyQueue t where
  refs := by
    rw [hprimary, hpopped, List.append_assoc]
    exact hs.refs.trans (by rw [List.append_assoc]; exact hrefs.symm.append_left s.primary)
  outcomes := by
    obtain ⟨unpersisted, hout⟩ := hs.outcomes
    refine ⟨unpersisted ++ failed, ?_⟩
    rw [List.perm_iff_count]
    intro entry
    have hold := hout.count_eq entry
    have hnew := hlog.count_eq entry
    rw [List.map_append]
    simp only [List.count_append] at hold hnew ⊢
    omega
  queue := by
    rw [hready, hpopped]
    exact hs.queue

/-- What the handling of a ready result can do with the item in hand. -/
inductive Handled (item : Item) (s : Session) : Session → Prop where
  | unsaved (row : Row) (hphase : item.phase = .metrics) (href : row.ref = item.ref) (hok : row.ok = false) :
      Handled item s { s with results := s.results ++ [row] }
  | finished (row : Row) (hphase : item.phase = .metrics) (href : row.ref = item.ref) :
      Handled item s { s with
        results := s.results ++ [row]
        persisted := s.persisted ++ [(item.ref, row.ok)] }
  | moved (base : Outcome) (saved : base.ok = true) (hphase : item.phase = .metrics) :
      Handled item s { s with
        pending := s.pending ++ [{ item with phase := .prewarm base saved }]
        persisted := s.persisted ++ [(item.ref, true)] }
  | prewarmed (row : Row) (base : Outcome) (saved : base.ok = true) (hphase : item.phase = .prewarm base saved)
      (href : row.ref = item.ref) (hok : row.ok = true) :
      Handled item s { s with results := s.results ++ [row] }

theorem handle_handled (c : Config) (e : Event) (item : Item) (s : Session) :
    Handled item s (handle c e item s) := by
  unfold handle
  split
  · rename_i hphase
    split
    · exact .unsaved _ hphase rfl rfl
    · by_cases saved : (persistOutcome e item.ref).ok = true
      · rw [dif_pos saved, submitPrewarm]
        split
        · exact .finished ⟨item.ref, (persistOutcome e item.ref).ok, _, _⟩ hphase rfl
        · rw [saved]
          exact .moved _ saved hphase
      · rw [dif_neg saved, Bool.eq_false_of_not_eq_true saved]
        exact .finished (failedRow item.ref _) hphase rfl
  · rename_i base saved hphase
    exact .prewarmed _ base saved hphase rfl saved

/-- The ref in hand goes from the pending items to the results. -/
theorem perm_append_of_cons {α : Type*} {others pending results : List α} {a : α}
    (h : pending.Perm (a :: others)) : (others ++ (results ++ [a])).Perm (pending ++ results) := by
  have hmove : (others ++ (results ++ [a])).Perm (a :: (others ++ results)) := by
    rw [← List.append_assoc]
    exact List.perm_append_singleton a (others ++ results)
  exact hmove.trans (h.symm.append_right results)

/-- **Handling a result keeps the invariant.** -/
theorem Placed.handled {item : Item} {rest : List Item} (hs : Placed c primaryRefs readyQueue s)
    (hperm : s.pending.Perm (item :: rest)) (h : Handled item { s with pending := rest } t) :
    Placed c primaryRefs readyQueue t := by
  have hrefs := hperm.map Item.ref
  have hsaved := hperm.filterMap Item.saved
  rw [List.map_cons] at hrefs
  cases h with
  | unsaved row hphase href hok =>
      -- the ref fails before its persist call, so nothing is logged for it
      rw [List.filterMap_cons_none (by rw [Item.saved, hphase])] at hsaved
      refine hs.settle rfl rfl rfl ?_ [item.ref] ?_
      · rw [List.map_append, List.map_singleton, href]
        exact perm_append_of_cons hrefs
      · have hrow : row.pair = (item.ref, false) := by rw [Row.pair, href, hok]
        rw [List.perm_iff_count]
        intro entry
        have hcount := hsaved.count_eq entry
        rw [List.map_append, List.map_singleton, hrow, List.map_singleton]
        simp only [List.count_append]
        omega
  | finished row hphase href =>
      rw [List.filterMap_cons_none (by rw [Item.saved, hphase])] at hsaved
      refine hs.settle rfl rfl rfl ?_ [] ?_
      · rw [List.map_append, List.map_singleton, href]
        exact perm_append_of_cons hrefs
      · have hrow : row.pair = (item.ref, row.ok) := by rw [Row.pair, href]
        rw [List.perm_iff_count]
        intro entry
        have hcount := hsaved.count_eq entry
        rw [List.map_append, List.map_singleton, hrow, List.map_nil, List.append_nil]
        simp only [List.count_append]
        omega
  | moved base saved hphase =>
      rw [List.filterMap_cons_none (by rw [Item.saved, hphase])] at hsaved
      refine hs.settle rfl rfl rfl ?_ [] ?_
      · rw [List.map_append, List.map_singleton]
        exact ((List.perm_append_singleton _ _).trans hrefs.symm).append_right _
      · -- the entry is logged, and the item in its prewarm stands for it
        rw [List.perm_iff_count]
        intro entry
        have hcount := hsaved.count_eq entry
        have hmoved : [{ item with phase := Phase.prewarm base saved }].filterMap Item.saved
            = [(item.ref, true)] := rfl
        rw [List.filterMap_append, hmoved, List.map_nil, List.append_nil]
        simp only [List.count_append]
        omega
  | prewarmed row base saved hphase href hok =>
      rw [List.filterMap_cons_some (b := (item.ref, true)) (by rw [Item.saved, hphase]),
        ← List.singleton_append] at hsaved
      refine hs.settle rfl rfl rfl ?_ [] ?_
      · rw [List.map_append, List.map_singleton, href]
        exact perm_append_of_cons hrefs
      · have hrow : row.pair = (item.ref, true) := by rw [Row.pair, href, hok]
        rw [List.perm_iff_count]
        intro entry
        have hcount := hsaved.count_eq entry
        rw [List.map_append, List.map_singleton, hrow, List.map_nil, List.append_nil]
        simp only [List.count_append] at hcount ⊢
        omega

/-- Handling a result is progress. -/
theorem Handled.weight_lt {item : Item} {rest : List Item} (hperm : s.pending.Perm (item :: rest))
    (h : Handled item { s with pending := rest } t) : t.weight < s.weight := by
  have hsum := (hperm.map Item.weight).sum_eq
  rw [List.map_cons, List.sum_cons] at hsum
  have hitem := one_le_weight item
  unfold Session.weight
  cases h with
  | unsaved row hphase href hok =>
      change 2 * (s.primary.length + s.ready.length) + (rest.map Item.weight).sum < _
      omega
  | finished row hphase href =>
      change 2 * (s.primary.length + s.ready.length) + (rest.map Item.weight).sum < _
      omega
  | moved base saved hphase =>
      have htwo : item.weight = 2 := by rw [Item.weight, hphase]
      rw [List.map_append, List.sum_append, List.map_singleton, List.sum_singleton]
      change 2 * (s.primary.length + s.ready.length) + ((rest.map Item.weight).sum + 1) < _
      omega
  | prewarmed row base saved hphase href hok =>
      change 2 * (s.primary.length + s.ready.length) + (rest.map Item.weight).sum < _
      omega

end Handling

/-! ## Giving up -/

section Abandon

variable {c : Config} {primaryRefs readyQueue : List Ref} {s : Session}

theorem abandon_abandon (missing missing' : Ref → Outcome) (s : Session) :
    abandon missing (abandon missing' s) = abandon missing' s := by
  unfold abandon
  rw [List.map_nil, List.append_nil]

/-- The rows of a session that gives up: every pending ref is reported as failed. -/
theorem map_pair_abandon (missing : Ref → Outcome) (s : Session) :
    (abandon missing s).results.map Row.pair
      = s.results.map Row.pair ++ (s.pending.map Item.ref).map fun ref => (ref, false) := by
  rw [abandon, List.map_append, List.map_map, List.map_map]
  rfl

theorem map_fst_false (refs : List Ref) : (refs.map fun ref => (ref, false)).map Prod.fst = refs := by
  rw [List.map_map]
  exact List.map_id refs

theorem countP_snd_false (refs : List Ref) : (refs.map fun ref => (ref, false)).countP Prod.snd = 0 := by
  rw [List.countP_map, List.countP_eq_zero]
  intro ref _ h
  cases h

/-- The items in their prewarm all count as ok. -/
theorem countP_snd_saved (pending : List Item) :
    (pending.filterMap Item.saved).countP Prod.snd = (pending.filterMap Item.saved).length := by
  rw [List.countP_eq_length]
  intro entry hentry
  obtain ⟨item, _, hsaved⟩ := List.mem_filterMap.mp hentry
  unfold Item.saved at hsaved
  split at hsaved
  · cases hsaved
  · cases hsaved
    rfl

/-- **Giving up reports every ref exactly in a settled state.** -/
theorem Placed.reports_abandon_iff (hs : Placed c primaryRefs readyQueue s) (missing : Ref → Outcome) :
    Reports c primaryRefs readyQueue (abandon missing s) ↔ Settled s := by
  obtain ⟨lost, hout⟩ := hs.outcomes
  have hpairs := map_pair_abandon missing s
  constructor
  · intro h
    obtain ⟨unpersisted, hselected, hrows⟩ := h.rows
    change ((abandon missing s).results.map Row.pair).Perm _ at hrows
    rw [hpairs] at hrows
    constructor
    · -- a ref that waits has no row
      have hplaced := hs.refs.length_eq
      have hone := hselected.length_eq
      have hall := hrows.length_eq
      change (primaryRefs ++ s.popped).length = _ at hone
      simp only [abandon, List.length_append, List.length_map] at hplaced hone hall
      rw [← List.length_eq_zero_iff]
      omega
    · -- an item in its prewarm is logged as ok, and its row is not
      have hok := hout.countP_eq Prod.snd
      have hall := hrows.countP_eq Prod.snd
      rw [List.countP_append, List.countP_append, countP_snd_false, countP_snd_saved] at hok
      rw [List.countP_append, List.countP_append, countP_snd_false, countP_snd_false] at hall
      change _ = s.persisted.countP Prod.snd + 0 at hall
      rw [← filterMap_saved_eq_nil, ← List.length_eq_zero_iff]
      omega
  · rintro ⟨hprimary, hmetrics⟩
    rw [filterMap_saved_eq_nil.mpr hmetrics, List.append_nil] at hout
    refine ⟨⟨lost ++ s.pending.map Item.ref, ?_, ?_⟩, hs.queue.order, hs.queue.shares, ?_⟩
    · have hdone : (s.results.map Row.ref).Perm (s.persisted.map Prod.fst ++ lost) := by
        have hfst := hout.map Prod.fst
        rw [List.map_append, map_fst_false, List.map_map] at hfst
        exact hfst
      have hplaced := hs.refs
      rw [hprimary, List.nil_append] at hplaced
      have hmerge : (s.pending.map Item.ref ++ (s.persisted.map Prod.fst ++ lost)).Perm
          (s.persisted.map Prod.fst ++ (lost ++ s.pending.map Item.ref)) := by
        rw [← List.append_assoc (s.persisted.map Prod.fst)]
        exact List.perm_append_comm
      exact (hplaced.trans (hdone.append_left _)).trans hmerge
    · change ((abandon missing s).results.map Row.pair).Perm _
      rw [hpairs, List.map_append, ← List.append_assoc]
      exact hout.append_right _
    · intro hle ref href
      exact lt_hardMax hle (hs.queue.meets ref href)

end Abandon

/-! ## The main loop -/

section Loop

variable {c : Config} {primaryRefs readyQueue : List Ref} {s : Session}

/-- **The ways a turn goes**, with work to do. -/
theorem turn_cases (c : Config) (e : Event) (hwork : s.hasWork = true) :
    (e.shutdown = true ∧ turn c e s = .stopped s) ∨
    (e.shutdown = false ∧ ∃ item rest, takeReady e.ready (fill c s).pending = some (item, rest) ∧
      turn c e s = .advanced (handle c e item { fill c s with pending := rest })) ∨
    (e.shutdown = false ∧ takeReady e.ready (fill c s).pending = none ∧ ∃ stalledFor,
      e.stalledFor = some stalledFor ∧
      turn c e s = .stopped (abandon (stallFailure stalledFor) (fill c s))) ∨
    (e.shutdown = false ∧ takeReady e.ready (fill c s).pending = none ∧ e.stalledFor = none ∧
      turn c e s = .waited (fill c s)) := by
  have hpending : (fill c s).pending.isEmpty = false := by
    rw [List.isEmpty_eq_false_iff]
    exact pending_fill_ne_nil c hwork
  unfold turn
  rcases hshutdown : e.shutdown with _ | _
  · right
    simp only [hpending, Bool.false_eq_true, if_false]
    rcases hready : takeReady e.ready (fill c s).pending with _ | ⟨item, rest⟩
    · right
      rcases hstalled : e.stalledFor with _ | stalledFor
      · exact .inr ⟨trivial, rfl, rfl, rfl⟩
      · exact .inl ⟨trivial, rfl, stalledFor, rfl, rfl⟩
    · exact .inl ⟨trivial, item, rest, rfl, rfl⟩
  · exact .inl ⟨rfl, rfl⟩

theorem placed_fill (c : Config) (hs : Placed c primaryRefs readyQueue s) :
    Placed c primaryRefs readyQueue (fill c s) := by
  obtain ⟨started, taken, items, h⟩ := fill_fills c s
  exact hs.fills h

theorem weight_fill (c : Config) (s : Session) : (fill c s).weight = s.weight := by
  obtain ⟨started, taken, items, h⟩ := fill_fills c s
  exact h.weight_eq

/-- Without work, nothing waits and nothing is pending. -/
theorem settled_of_not_hasWork (hwork : ¬s.hasWork = true) : Settled s := by
  unfold Session.hasWork at hwork
  rw [Bool.or_eq_true, not_or] at hwork
  obtain ⟨hprimary, hpending⟩ := hwork
  constructor
  · simpa using hprimary
  · have hnil : s.pending = [] := by simpa using hpending
    rw [hnil]
    simp

/-- **Every run**: the loop keeps the invariant, and what it ends with reports its refs exactly when its
turns are clean. -/
theorem reports_loop_iff (c : Config) (events : List Event) : ∀ (s t : Session),
    Placed c primaryRefs readyQueue s → loop c events s = some t →
      (Reports c primaryRefs readyQueue (abandon interrupted t) ↔ RunClean c events s) := by
  induction events with
  | nil =>
      intro s t hs hloop
      rw [loop] at hloop
      split_ifs at hloop with hwork
      cases hloop
      rw [hs.reports_abandon_iff, RunClean, iff_true]
      exact settled_of_not_hasWork hwork
  | cons e events ih =>
      intro s t hs hloop
      have hfill := placed_fill c hs
      rw [loop] at hloop
      split_ifs at hloop with hwork
      · rw [RunClean, imp_iff_right hwork]
        rcases turn_cases c e hwork with ⟨hshutdown, hturn⟩ |
          ⟨hshutdown, item, rest, hready, hturn⟩ | ⟨hshutdown, hready, stalledFor, hstalled, hturn⟩ |
          ⟨hshutdown, hready, hstalled, hturn⟩
        · simp only [hturn] at hloop ⊢
          cases hloop
          rw [hs.reports_abandon_iff, TurnClean, if_pos hshutdown, and_true]
        · -- nothing is given up in a turn that handles a result
          simp only [hturn] at hloop ⊢
          have hclean : TurnClean c e s := by
            rw [TurnClean, hshutdown, hready]
            rintro ⟨⟩
          rw [ih _ t (hfill.handled (takeReady_perm hready) (handle_handled c e item _)) hloop]
          exact (and_iff_right hclean).symm
        · simp only [hturn] at hloop ⊢
          cases hloop
          -- the closing loop finds nothing pending after a stall
          rw [abandon_abandon, hfill.reports_abandon_iff, TurnClean, hshutdown, hready, hstalled, and_true]
          simp
        · simp only [hturn] at hloop ⊢
          have hclean : TurnClean c e s := by
            rw [TurnClean, hshutdown, hstalled]
            simp
          rw [ih _ t hfill hloop]
          exact (and_iff_right hclean).symm
      · cases hloop
        rw [hs.reports_abandon_iff, RunClean]
        exact iff_of_true (settled_of_not_hasWork hwork) fun h => absurd h hwork

/-- **The loop ends**: the turns that do not wait are at most the phases that are to come. -/
theorem loop_ends (c : Config) (events : List Event) : ∀ s : Session,
    waits c events s + s.weight < events.length → ∃ t, loop c events s = some t := by
  induction events with
  | nil =>
      intro s hlong
      exact absurd hlong (Nat.not_lt_zero _)
  | cons e events ih =>
      intro s hlong
      have hweight := weight_fill c s
      rw [loop]
      rw [waits, List.length_cons] at hlong
      split_ifs at hlong ⊢ with hwork
      · rcases turn_cases c e hwork with ⟨hshutdown, hturn⟩ |
          ⟨hshutdown, item, rest, hready, hturn⟩ | ⟨hshutdown, hready, stalledFor, hstalled, hturn⟩ |
          ⟨hshutdown, hready, hstalled, hturn⟩
        · exact ⟨s, by rw [hturn]⟩
        · -- one phase less is to come, and one event less is left
          simp only [hturn] at hlong ⊢
          have hless := (handle_handled c e item _).weight_lt (takeReady_perm hready)
          apply ih
          omega
        · exact ⟨_, by rw [hturn]⟩
        · simp only [hturn] at hlong ⊢
          apply ih
          omega
      · exact ⟨s, rfl⟩

end Loop

/-- A session that sees neither a shutdown nor a stall gives up nothing. -/
theorem runClean_of_steady (c : Config) {events : List Event}
    (hsteady : ∀ e ∈ events, e.shutdown = false ∧ e.stalledFor = none) :
    ∀ s : Session, RunClean c events s := by
  induction events with
  | nil => exact fun _ => trivial
  | cons e events ih =>
      intro s
      have hrest := ih fun e' he' => hsteady e' (List.mem_cons_of_mem e he')
      obtain ⟨hshutdown, hstalled⟩ := hsteady e List.mem_cons_self
      intro _
      refine ⟨?_, ?_⟩
      · rw [TurnClean, hshutdown, hstalled]
        simp
      · split
        · exact hrest _
        · exact hrest _
        · trivial

theorem placed_start (c : Config) (primaryRefs readyQueue : List Ref) :
    Placed c primaryRefs readyQueue (start primaryRefs readyQueue) where
  refs := by
    rw [start, List.map_nil, List.map_nil, List.append_nil, List.append_nil]
  outcomes := ⟨[], List.Perm.refl _⟩
  queue := Extracts.refl readyQueue

/-- **What the session reports.**  A session that returns reports its refs exactly when the turn in which it
gives up, if there is one, finds it settled; and it returns unless it only waits. -/
theorem reports_iff (c : Config) (primaryRefs readyQueue : List Ref) (events : List Event) :
    (∀ s, session c primaryRefs readyQueue events = some s →
      (Reports c primaryRefs readyQueue s ↔ RunClean c events (start primaryRefs readyQueue))) ∧
    (waits c events (start primaryRefs readyQueue) + 2 * (primaryRefs.length + readyQueue.length)
        < events.length →
      ∃ s, session c primaryRefs readyQueue events = some s) := by
  have hstart := placed_start c primaryRefs readyQueue
  constructor
  · intro s hsession
    rw [session] at hsession
    split_ifs at hsession with hempty
    · -- without primary refs the call returns at once
      have hwork : ¬(start primaryRefs readyQueue).hasWork = true := by
        rw [List.isEmpty_iff.mp hempty]
        exact Bool.false_ne_true
      have hreports : Reports c primaryRefs readyQueue s ↔ Settled s := by
        cases hsession
        exact hstart.reports_abandon_iff interrupted
      cases hsession
      rw [hreports]
      apply iff_of_true (settled_of_not_hasWork hwork)
      rcases events with _ | ⟨e, events⟩
      · trivial
      · exact fun h => absurd h hwork
    · obtain ⟨t, hloop, rfl⟩ := Option.map_eq_some_iff.mp hsession
      exact reports_loop_iff c events _ t hstart hloop
  · intro hlong
    rw [session]
    split_ifs with hempty
    · exact ⟨_, rfl⟩
    · obtain ⟨t, hloop⟩ := loop_ends c events (start primaryRefs readyQueue) hlong
      exact ⟨abandon interrupted t, by rw [hloop]; rfl⟩

/-! ### Two sessions -/

/-- One slot, and the prewarm is done by the parent. -/
def oneSlot : Config := ⟨1, 10000, 80000, true, "inline", false⟩

/-- Three slots, and the prewarm is done by the pool. -/
def threeSlots : Config := ⟨3, 10000, 80000, true, "pipeline_required", true⟩

def jobOf (jid : String) (samples : ℤ) : Ref := ⟨jid, some samples, none, none⟩

/-- A turn that finds every result ready and the work done. -/
def steadyTurn (jid : String) : Event :=
  ⟨false, fun _ => true, none, none, .ok ⟨jid, true, "ok", "", ""⟩, false, .dict true⟩

/-- A turn that finds the shutdown flag set. -/
def shutdownTurn : Event := { steadyTurn "" with shutdown := true }

/-- A small job of the ready queue goes along with two primary refs; the large one stays. -/
theorem reports_iff_threeSlots :
    ∃ s, session threeSlots [jobOf "1" 5, jobOf "2" 7] [jobOf "4" 90000, jobOf "3" 20]
        (List.replicate 9 (steadyTurn "1")) = some s ∧
      Reports threeSlots [jobOf "1" 5, jobOf "2" 7] [jobOf "4" 90000, jobOf "3" 20] s := by
  have hsession := reports_iff threeSlots [jobOf "1" 5, jobOf "2" 7] [jobOf "4" 90000, jobOf "3" 20]
    (List.replicate 9 (steadyTurn "1"))
  obtain ⟨s, hs⟩ := hsession.2 (by decide)
  refine ⟨s, hs, (hsession.1 s hs).mpr (runClean_of_steady threeSlots ?_ _)⟩
  intro e he
  rw [List.eq_of_mem_replicate he]
  exact ⟨rfl, rfl⟩

/-- The shutdown flag is seen after the first of two refs: the second one has no result. -/
theorem not_reports :
    ¬∀ (c : Config) (primaryRefs readyQueue : List Ref) (events : List Event) (s : Session),
      session c primaryRefs readyQueue events = some s → Reports c primaryRefs readyQueue s := by
  intro h
  obtain ⟨unpersisted, hselected, hrows⟩ :=
    (h oneSlot [jobOf "1" 5, jobOf "2" 7] [] [steadyTurn "1", shutdownTurn] _ rfl).rows
  have hone := hselected.length_eq
  have hall := hrows.length_eq
  rw [List.length_append, List.length_append] at hone
  rw [List.length_append, List.length_map, List.length_map] at hall
  change 2 = 1 + unpersisted.length at hone
  change 1 = 1 + unpersisted.length at hall
  omega

end SlidingSession
