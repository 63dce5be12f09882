/-
# The calls of a worker pool

A thread submits calls to a pool and keeps a map from a key of its own to the last call for this key.  A call goes on
until it has a result, and its result stays.  `Tracked` says that the map has every call that goes on under its own
key: then no two of them share a key (`Tracked.nodup_running`), and there are no more of them than entries of the
map (`Tracked.length_running_le`).

This is a library: it names nothing of a particular pool.
-/
import HpcPerfStats.OrderedDict
import Mathlib.Data.List.Perm.Subperm

namespace CallPool

open OrderedDict

variable {κ α ρ : Type*}

/-- A call with its key, its argument, and its result when it is done. -/
structure Call (κ α ρ : Type*) where
  key : κ
  arg : α
  result : Option ρ

/-- A call returns; `none` when it does not go on. -/
def finish (calls : List (Call κ α ρ)) (n : ℕ) (result : ρ) : Option (List (Call κ α ρ)) :=
  match calls[n]? with
  | some ⟨key, arg, none⟩ => some (calls.set n ⟨key, arg, some result⟩)
  | _ => none

/-- The calls that go on. -/
def running (calls : List (Call κ α ρ)) : List (Call κ α ρ) := calls.filter fun call => call.result.isNone

theorem getElem?_of_mem_running {calls : List (Call κ α ρ)} {call : Call κ α ρ} (hcall : call ∈ running calls) :
    ∃ n : ℕ, calls[n]? = some ⟨call.key, call.arg, none⟩ := by
  obtain ⟨hmem, hnone⟩ := List.mem_filter.mp hcall
  obtain ⟨n, hn⟩ := List.mem_iff_getElem?.mp hmem
  refine ⟨n, ?_⟩
  rw [hn, ← Option.isNone_iff_eq_none.mp hnone]

section Calls

variable {calls calls' : List (Call κ α ρ)} {n m : ℕ} {key : κ} {arg : α} {result : ρ}

/-- What a return does to the list of the calls. -/
theorem finish_cases (h : finish calls n result = some calls') :
    ∃ key arg, calls[n]? = some ⟨key, arg, none⟩ ∧ calls'[n]? = some ⟨key, arg, some result⟩ ∧
      ∀ m, m ≠ n → calls'[m]? = calls[m]? := by
  unfold finish at h
  split at h
  · next key arg hn =>
      obtain rfl := Option.some.inj h
      exact ⟨key, arg, hn, List.getElem?_set_self (List.getElem?_eq_some_iff.mp hn).1,
        fun m hm => List.getElem?_set_ne (Ne.symm hm)⟩
  · cases h

/-- A call that is done stays as it is. -/
theorem done_of_finish (h : finish calls n result = some calls') {result' : ρ}
    (hm : calls[m]? = some ⟨key, arg, some result'⟩) : calls'[m]? = some ⟨key, arg, some result'⟩ := by
  obtain ⟨key', arg', hn, -, hother⟩ := finish_cases h
  refine (hother m ?_).trans hm
  rintro rfl
  rw [hn, Option.some.injEq, Call.mk.injEq] at hm
  exact absurd hm.2.2 (Option.some_ne_none result').symm

/-- What is true of the keys and arguments of the calls stays true. -/
theorem forall_of_finish {P : κ → α → Prop} (h : finish calls n result = some calls')
    (hall : ∀ call ∈ calls, P call.key call.arg) : ∀ call ∈ calls', P call.key call.arg := by
  obtain ⟨key, arg, hn, hn', hother⟩ := finish_cases h
  intro call hcall
  obtain ⟨m, hm⟩ := List.mem_iff_getElem?.mp hcall
  by_cases heq : m = n
  · rw [heq, hn'] at hm
    obtain rfl := Option.some.inj hm
    have hold := hall _ (List.mem_of_getElem? hn)
    exact hold
  · exact hall call (List.mem_of_getElem? ((hother m heq).symm.trans hm))

/-- A new call is the last one. -/
theorem getElem?_submit : (calls ++ [⟨key, arg, none⟩])[calls.length]? = some ⟨key, arg, none⟩ := by
  rw [List.getElem?_append_right (Nat.le_refl _), Nat.sub_self]
  rfl

/-- A call that was there before a new one stays where it is. -/
theorem getElem?_of_submit {call : Call κ α ρ} (calls'' : List (Call κ α ρ)) (hn : calls[n]? = some call) :
    (calls ++ calls'')[n]? = some call :=
  (List.getElem?_append_left (List.getElem?_eq_some_iff.mp hn).1).trans hn

variable [DecidableEq κ] {inflight : Dict κ ℕ}

/-- The map has the calls that go on, each under its key. -/
structure Tracked (inflight : Dict κ ℕ) (calls : List (Call κ α ρ)) : Prop where
  call : ∀ key n, inflight.get key = some n → ∃ arg result, calls[n]? = some ⟨key, arg, result⟩
  running : ∀ n key arg, calls[n]? = some ⟨key, arg, none⟩ → inflight.get key = some n

theorem tracked_empty : Tracked (Dict.empty : Dict κ ℕ) ([] : List (Call κ α ρ)) := by
  refine ⟨?_, ?_⟩
  · intro key n h
    cases h
  · intro n key arg h
    cases h

/-- A call for a key that has none. -/
theorem Tracked.submit (h : Tracked inflight calls) (hfree : inflight.get key = none) (arg : α) :
    Tracked (inflight.set key calls.length) (calls ++ [⟨key, arg, none⟩]) := by
  refine ⟨?_, ?_⟩
  · intro key' n hget
    rw [get_set] at hget
    split_ifs at hget with heq
    · obtain rfl := Option.some.inj hget
      rw [heq]
      exact ⟨arg, none, getElem?_submit⟩
    · obtain ⟨arg', result, hn⟩ := h.call key' n hget
      exact ⟨arg', result, getElem?_of_submit _ hn⟩
  · intro n key' arg' hn
    rw [get_set]
    rcases Nat.lt_or_ge n calls.length with hlt | hge
    · rw [List.getElem?_append_left hlt] at hn
      have hget := h.running n key' arg' hn
      rw [if_neg ?_]
      · exact hget
      · rintro rfl
        rw [hget] at hfree
        cases hfree
    · have hlast : n = calls.length := by
        have hlt := (List.getElem?_eq_some_iff.mp hn).1
        rw [List.length_append, List.length_singleton] at hlt
        omega
      subst hlast
      rw [getElem?_submit, Option.some.injEq, Call.mk.injEq] at hn
      rw [if_pos hn.1.symm]

theorem Tracked.finish (h : Tracked inflight calls) (hfinish : finish calls n result = some calls') :
    Tracked inflight calls' := by
  obtain ⟨key, arg, hn, hn', hother⟩ := finish_cases hfinish
  refine ⟨?_, ?_⟩
  · intro key' m hget
    obtain ⟨arg', result', hm⟩ := h.call key' m hget
    by_cases heq : m = n
    · subst heq
      rw [hn, Option.some.injEq, Call.mk.injEq] at hm
      exact ⟨arg, some result, hm.1 ▸ hn'⟩
    · exact ⟨arg', result', (hother m heq).trans hm⟩
  · intro m key' arg' hm
    by_cases heq : m = n
    · rw [heq, hn', Option.some.injEq, Call.mk.injEq] at hm
      exact absurd hm.2.2 (Option.some_ne_none result)
    · exact h.running m key' arg' ((hother m heq).symm.trans hm)

/-- A call that is done leaves the map. -/
theorem Tracked.pop (h : Tracked inflight calls) (hget : inflight.get key = some n)
    (hn : calls[n]? = some ⟨key, arg, some result⟩) : Tracked (inflight.pop key) calls := by
  refine ⟨?_, ?_⟩
  · intro key' m hm
    rw [get_pop] at hm
    split_ifs at hm
    exact h.call key' m hm
  · intro m key' arg' hm
    have hrunning := h.running m key' arg' hm
    rw [get_pop, if_neg ?_]
    · exact hrunning
    · -- the call of this key has returned
      rintro rfl
      rw [hget, Option.some.injEq] at hrunning
      rw [← hrunning, hn, Option.some.injEq, Call.mk.injEq] at hm
      exact absurd hm.2.2 (Option.some_ne_none result)

/-- **No two calls that go on share a key.** -/
theorem Tracked.nodup_running (h : Tracked inflight calls) : ((CallPool.running calls).map Call.key).Nodup := by
  have htracked : ∀ {n : ℕ} (hn : n < calls.length), calls[n].result = none →
      inflight.get calls[n].key = some n := by
    intro n hn hresult
    refine h.running n _ calls[n].arg ?_
    rw [List.getElem?_eq_getElem hn, ← hresult]
  have hpairs : calls.Pairwise fun a b => a.result = none → b.result = none → a.key ≠ b.key := by
    rw [List.pairwise_iff_getElem]
    intro m n hm hn hlt hresultm hresultn heq
    have hsame := (htracked hm hresultm).symm.trans ((congrArg inflight.get heq).trans (htracked hn hresultn))
    exact absurd (Option.some.inj hsame) (Nat.ne_of_lt hlt)
  unfold CallPool.running List.Nodup
  rw [List.pairwise_map, List.pairwise_filter]
  refine hpairs.imp fun hne ha hb => ?_
  exact hne (Option.isNone_iff_eq_none.mp ha) (Option.isNone_iff_eq_none.mp hb)

theorem Tracked.get_of_mem_running (h : Tracked inflight calls) {call : Call κ α ρ}
    (hcall : call ∈ CallPool.running calls) :
    ∃ n : ℕ, calls[n]? = some ⟨call.key, call.arg, none⟩ ∧ inflight.get call.key = some n := by
  obtain ⟨n, hn⟩ := getElem?_of_mem_running hcall
  exact ⟨n, hn, h.running n call.key call.arg hn⟩

/-- **The map bounds the calls that go on.** -/
theorem Tracked.length_running_le (h : Tracked inflight calls) : (CallPool.running calls).length ≤ inflight.size := by
  have hsub : (CallPool.running calls).map Call.key ⊆ inflight.entries.map Prod.fst := by
    intro key hkey
    obtain ⟨call, hcall, rfl⟩ := List.mem_map.mp hkey
    obtain ⟨n, -, hn⟩ := h.get_of_mem_running hcall
    exact List.mem_map.mpr ⟨(call.key, n), mem_of_get hn, rfl⟩
  have hle := (h.nodup_running.subperm hsub).length_le
  rw [List.length_map, List.length_map] at hle
  exact hle

end Calls

end CallPool
