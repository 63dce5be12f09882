/-
# Threads over a shared state

A thread is a partial-step system with a part of its state that other threads change, too: what they do to it is
a step `outside op`.  A `System` has one shared part and a local state for each thread, and performs the steps of
its threads in any order.  When a step of a thread is at most one operation of the shared part, which the other
threads accept as one from outside (`Compatible`), a run of the system is, seen by each thread, a run of that thread
(`exists_run_view`), and what the operations preserve holds of the shared part in every state (`shared_invariant`).

This is a library: it names nothing of a particular system.
-/
import HpcPerfStats.Transition
import Mathlib.Logic.Function.Basic

namespace Interleaving

open Transition

variable {S Op : Type*} {ι : Type*}

/-- A thread: its states with the shared part, and the steps of the others. -/
structure Thread (S Op : Type*) where
  State : Type
  Act : Type
  step : State → Act → Option State
  shared : State → S
  withShared : State → S → State
  outside : Op → Act

/-- The shared part, and what each thread has beside it; the shared part of a local state takes no part. -/
structure System (threads : ι → Thread S Op) where
  shared : S
  locals : ∀ i, (threads i).State

inductive SystemAct (threads : ι → Thread S Op) where
  | run (i : ι) (a : (threads i).Act)
  /-- What is none of the threads changes the shared part. -/
  | outside (op : Op)

variable {threads : ι → Thread S Op}

/-- What a thread sees of the system. -/
def System.view (c : System threads) (i : ι) : (threads i).State := (threads i).withShared (c.locals i) c.shared

variable [DecidableEq ι]

/-- The system after a step of one thread. -/
def System.step (apply : S → Op → Option S) (c : System threads) : SystemAct threads → Option (System threads)
  | .run i a => ((threads i).step (c.view i) a).map fun t =>
      ⟨(threads i).shared t, Function.update c.locals i t⟩
  | .outside op => (apply c.shared op).map fun s => ⟨s, c.locals⟩

/-- The threads fit together: `own i` are the operations of a thread, and `accepts i` are those that it takes from
outside. -/
structure Compatible (threads : ι → Thread S Op) (apply : S → Op → Option S) (own accepts : ι → Op → Prop) : Prop where
  shared_withShared : ∀ i c s, (threads i).shared ((threads i).withShared c s) = s
  withShared_shared : ∀ i c, (threads i).withShared c ((threads i).shared c) = c
  withShared_withShared : ∀ i c s s',
    (threads i).withShared ((threads i).withShared c s) s' = (threads i).withShared c s'
  outside : ∀ i c s' op, accepts i op → apply ((threads i).shared c) op = some s' →
    (threads i).step c ((threads i).outside op) = some ((threads i).withShared c s')
  one : ∀ i c a c', (∀ op, a ≠ (threads i).outside op) → (threads i).step c a = some c' →
    (threads i).shared c' = (threads i).shared c ∨
      ∃ op, own i op ∧ apply ((threads i).shared c) op = some ((threads i).shared c')
  accepted : ∀ i j op, i ≠ j → own j op → accepts i op

/-- The steps of a thread are its own and meet its condition; what comes from outside is accepted by all. -/
def StepOk (ok : ∀ i, (threads i).State → (threads i).Act → Prop) (accepts : ι → Op → Prop) (c : System threads) :
    SystemAct threads → Prop
  | .run i a => ok i (c.view i) a ∧ ∀ op, a ≠ (threads i).outside op
  | .outside op => ∀ i, accepts i op

section Compatible

variable {apply : S → Op → Option S} {own accepts : ι → Op → Prop}
  {ok : ∀ i, (threads i).State → (threads i).Act → Prop} {c c' : System threads} {a : SystemAct threads}

/-- What a step does to the shared part. -/
theorem Compatible.shared_step (h : Compatible threads apply own accepts) (hok : StepOk ok accepts c a)
    (hstep : c.step apply a = some c') :
    c'.shared = c.shared ∨ ∃ op, apply c.shared op = some c'.shared ∧ ((∃ j, own j op) ∨ a = .outside op) := by
  cases a with
  | run i b =>
      obtain ⟨t, ht, rfl⟩ := Option.map_eq_some_iff.mp hstep
      have hone := h.one i (c.view i) b t hok.2 ht
      unfold System.view at hone
      rw [h.shared_withShared] at hone
      exact hone.imp_right fun ⟨op, hown, happly⟩ => ⟨op, happly, Or.inl ⟨i, hown⟩⟩
  | outside op =>
      obtain ⟨s, hs, rfl⟩ := Option.map_eq_some_iff.mp hstep
      exact Or.inr ⟨op, hs, Or.inr rfl⟩

omit [DecidableEq ι] in
/-- The view of a thread when the others have changed the shared part. -/
theorem Compatible.view_outside (h : Compatible threads apply own accepts) {i : ι} {op : Op} {s : S}
    (haccepts : accepts i op) (happly : apply c.shared op = some s) :
    (threads i).step (c.view i) ((threads i).outside op) = some ((threads i).withShared (c.locals i) s) := by
  rw [← h.withShared_withShared i (c.locals i) c.shared s]
  refine h.outside i (c.view i) s op haccepts ?_
  unfold System.view
  rw [h.shared_withShared]
  exact happly

/-- **A step of the system, seen by a thread**: nothing, a step of its own, or one from outside. -/
theorem Compatible.view_step (h : Compatible threads apply own accepts) (hok : StepOk ok accepts c a)
    (hstep : c.step apply a = some c') (i : ι) :
    c'.view i = c.view i ∨ ∃ b, (threads i).step (c.view i) b = some (c'.view i) ∧
      (ok i (c.view i) b ∨ ∃ op, b = (threads i).outside op) := by
  cases a with
  | run j b =>
      have hshared := h.shared_step hok hstep
      obtain ⟨t, ht, rfl⟩ := Option.map_eq_some_iff.mp hstep
      by_cases hi : i = j
      · subst hi
        refine Or.inr ⟨b, ?_, Or.inl hok.1⟩
        rw [ht]
        show some t = some ((threads i).withShared (Function.update c.locals i t i) ((threads i).shared t))
        rw [Function.update_self, h.withShared_shared]
      · have hlocal : Function.update c.locals j t i = c.locals i := Function.update_of_ne hi _ _
        have hone := h.one j (c.view j) b t hok.2 ht
        unfold System.view at hone
        rw [h.shared_withShared] at hone
        rcases hone with hsame | ⟨op, hown, happly⟩
        · refine Or.inl ?_
          show (threads i).withShared (Function.update c.locals j t i) ((threads j).shared t) = _
          rw [hlocal, hsame]
          rfl
        · refine Or.inr ⟨_, ?_, Or.inr ⟨op, rfl⟩⟩
          show _ = some ((threads i).withShared (Function.update c.locals j t i) ((threads j).shared t))
          rw [hlocal]
          exact h.view_outside (h.accepted i j op hi hown) happly
  | outside op =>
      obtain ⟨s, hs, rfl⟩ := Option.map_eq_some_iff.mp hstep
      exact Or.inr ⟨_, h.view_outside (hok i) hs, Or.inr ⟨op, rfl⟩⟩

/-- **A run of the system, seen by a thread**, is a run of the thread. -/
theorem Compatible.exists_run_view (h : Compatible threads apply own accepts)
    (hout : ∀ i t op, ok i t ((threads i).outside op)) (i : ι) (acts : List (SystemAct threads)) :
    ∀ {c c' : System threads}, Respects (System.step apply) (StepOk ok accepts) c acts →
      exec (System.step apply) c acts = some c' →
      ∃ bs, exec (threads i).step (c.view i) bs = some (c'.view i) ∧
        Respects (threads i).step (ok i) (c.view i) bs := by
  induction acts with
  | nil =>
      intro c c' _ hrun
      obtain rfl := Option.some.inj hrun
      exact ⟨[], rfl, trivial⟩
  | cons a acts ih =>
      intro c c' hok hrun
      obtain ⟨d, hstep, hrest⟩ := exec_cons_some.mp hrun
      obtain ⟨bs, hbs, hokbs⟩ := ih (hok.2 d hstep) hrest
      rcases h.view_step hok.1 hstep i with hsame | ⟨b, hb, hokb⟩
      · rw [← hsame]
        exact ⟨bs, hbs, hokbs⟩
      · refine ⟨b :: bs, exec_cons_some.mpr ⟨_, hb, hbs⟩, Respects.cons hb ?_ hokbs⟩
        rcases hokb with hown | ⟨op, rfl⟩
        · exact hown
        · exact hout i _ op

/-- **What the operations preserve** holds of the shared part in every state of a run. -/
theorem Compatible.shared_invariant (h : Compatible threads apply own accepts) {I : S → Prop} {kept : Op → Prop}
    (hkept : ∀ s op s', I s → kept op → apply s op = some s' → I s') (hown : ∀ i op, own i op → kept op)
    {acts : List (SystemAct threads)} (hc : I c.shared)
    (hok : Respects (System.step apply) (fun c a => StepOk ok accepts c a ∧ ∀ op, a = .outside op → kept op) c acts)
    (hrun : exec (System.step apply) c acts = some c') : I c'.shared := by
  refine exec_invariant (I := fun c => I c.shared) ?_ acts c c' hc hok hrun
  intro u b u' hu hokb hstep
  rcases h.shared_step hokb.1 hstep with hsame | ⟨op, happly, ⟨j, hj⟩ | hb⟩
  · rw [hsame]
    exact hu
  · exact hkept _ op _ hu (hown j op hj) happly
  · exact hkept _ op _ hu (hokb.2 op hb) happly

end Compatible

end Interleaving
