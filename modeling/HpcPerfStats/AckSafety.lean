/-
# Acknowledgements are safe

The invariant of the acknowledgement protocol and what follows for every run.

A payload is *settled* while its session still has the generation of the delivery and its thread still
consumes on the channel of the delivery.  What a worker reads of the session while the payload is
settled is the connection and the channel of the delivery; once a bind has begun the payload is never
settled again, so what was read in the middle of a bind is only used by callbacks that find the
generation changed.  A callback runs on the thread that binds, so it never sees half a bind.

`ackSafe_of_run` says that every acknowledgement is for an appended payload, on the channel and the
generation of its delivery, and the only one for it; and how far `_archive_inflight` is from the number
of payloads taken and not flushed.
-/
import HpcPerfStats.AckProtocol
import Mathlib.Algebra.Order.BigOperators.Group.Finset

namespace AckProtocol

variable {μ : Type*} {n : ℕ}

/-! ## Sums over the workers -/

/-- A sum over the workers when one of them changes. -/
theorem sum_update (f : Fin n → Worker μ) (w : Fin n) (v : Worker μ) (g : Worker μ → ℕ) :
    ∑ j, g (Function.update f w v j) + g (f w) = ∑ j, g (f j) + g v := by
  have hrest : ∑ j ∈ Finset.univ.erase w, g (Function.update f w v j) =
      ∑ j ∈ Finset.univ.erase w, g (f j) := by
    apply Finset.sum_congr rfl
    intro j hj
    rw [Function.update_of_ne (Finset.ne_of_mem_erase hj)]
  have hnew := Finset.add_sum_erase Finset.univ (fun j => g (Function.update f w v j))
    (Finset.mem_univ w)
  have hold := Finset.add_sum_erase Finset.univ (fun j => g (f j)) (Finset.mem_univ w)
  rw [hrest, Function.update_self] at hnew
  omega

/-! ## Copies of a delivery -/

section Copies

variable (k : Key)

/-- Where a worker may still bring about an acknowledgement for a key. -/
def Pc.copies : Pc μ → ℕ
  | .idle => 0
  | .taken d => if d.key = k then 1 else 0
  | .counted d => if d.key = k then 1 else 0
  | .appending d => if d.key = k then 1 else 0
  | .readConnection op d => if op = .ack ∧ d.key = k then 1 else 0
  | .readChannel op d _ => if op = .ack ∧ d.key = k then 1 else 0
  | .readGeneration op d _ _ => if op = .ack ∧ d.key = k then 1 else 0
  | .readReconnect op d _ _ _ => if op = .ack ∧ d.key = k then 1 else 0
  | .schedule cb => if cb.op = .ack ∧ cb.work.key = k then 1 else 0
  | .flushed => 0

def workCopies (l : List (Work μ)) : ℕ := l.countP fun d => d.key = k

def Worker.copies (v : Worker μ) : ℕ := workCopies k v.queue + workCopies k v.held + v.pc.copies k

def callbackCopies (l : List (Callback μ)) : ℕ :=
  l.countP fun cb => cb.op = .ack ∧ cb.work.key = k

/-- How often a key can be acknowledged: what is on the way to an acknowledgement and those made. -/
def State.copies (s : State n μ) : ℕ :=
  ∑ w, (s.worker w).copies k + callbackCopies k s.callbacks + s.acks.countP fun a => a.key = k

end Copies

/-- The payloads of a worker that `_archive_inflight` counts. -/
def Worker.counted (v : Worker μ) : ℕ :=
  v.held.length +
    match v.pc with
    | .idle => 0
    | .taken _ => 0
    | _ => 1

/-! ## The invariant -/

/-- The session of a payload is as it was when the payload was delivered. -/
def Settled (s : State n μ) (d : Work μ) : Prop :=
  (s.consumer d.session).generation = d.ackGeneration ∧
    (s.consumer d.session).io = .at (.consuming d.channel)

/-- The connection of a stage is one of the session. -/
def Stage.Owned (i : ℕ) (stage : Stage) : Prop := ∀ conn, stage.conn = some conn → conn.session = i

/-- What a session has bound where its thread is. -/
def IoInv (i : ℕ) (c : Consumer) : Prop :=
  match c.io with
  | .at stage =>
      stage.Owned i ∧ c.connection = stage.boundChannel.map Channel.conn ∧
        c.channel = stage.boundChannel ∧ (stage.boundChannel ≠ none → 0 < c.generation)
  | .writeChannel next => next.Owned i ∧ c.connection = next.boundChannel.map Channel.conn
  | .writeGeneration next =>
      next.Owned i ∧ c.connection = next.boundChannel.map Channel.conn ∧
        c.channel = next.boundChannel
  | .writeReconnect next =>
      next.Owned i ∧ c.connection = next.boundChannel.map Channel.conn ∧
        c.channel = next.boundChannel ∧ 0 < c.generation

/-- A delivered payload has a generation that its session had; while the session still has it, the
session is consuming on the channel of the payload or in the first part of a bind. -/
def DeliveryInv (c : Consumer) (d : Work μ) : Prop :=
  0 < d.ackGeneration ∧ d.ackGeneration ≤ c.generation ∧
    (d.ackGeneration = c.generation → c.io = .at (.consuming d.channel) ∨
      ∃ next, c.io = .writeChannel next ∨ c.io = .writeGeneration next)

/-- A payload on its way to an acknowledgement was appended. -/
def Carries (s : State n μ) (op : Op) (d : Work μ) : Prop :=
  d ∈ s.deliveries ∧ (op = .ack → d ∈ s.archived)

/-- What was read of the connection of a session. -/
def ConnOk (s : State n μ) (d : Work μ) (conn : Option Conn) : Prop :=
  (∀ c, conn = some c → c.session = d.session) ∧ (Settled s d → conn = some d.channel.conn)

/-- What was read of the channel of a session. -/
def ChannelOk (s : State n μ) (d : Work μ) (ch : Option Channel) : Prop :=
  Settled s d → ch = some d.channel

/-- What holds of a callback from when it is made until it runs. -/
structure CallbackInv (s : State n μ) (cb : Callback μ) : Prop where
  carries : Carries s cb.op cb.work
  conn : ConnOk s cb.work (some cb.conn)
  channel : ChannelOk s cb.work (some cb.channel)
  generation : cb.generation = cb.work.ackGeneration

def PcInv (s : State n μ) : Pc μ → Prop
  | .idle => True
  | .taken d => d ∈ s.deliveries
  | .counted d => d ∈ s.deliveries
  | .appending d => d ∈ s.deliveries
  | .readConnection op d => Carries s op d
  | .readChannel op d conn => Carries s op d ∧ ConnOk s d conn
  | .readGeneration op d conn ch => Carries s op d ∧ ConnOk s d conn ∧ ChannelOk s d ch
  | .readReconnect op d conn ch _ => Carries s op d ∧ ConnOk s d conn ∧ ChannelOk s d ch
  | .schedule cb => CallbackInv s cb
  | .flushed => True

structure WorkerInv (s : State n μ) (v : Worker μ) : Prop where
  queue : ∀ d ∈ v.queue, d ∈ s.deliveries
  held : ∀ d ∈ v.held, d ∈ s.deliveries
  pc : PcInv s v.pc

structure Inv (s : State n μ) : Prop where
  io : ∀ i, IoInv i (s.consumer i)
  delivery : ∀ d ∈ s.deliveries, DeliveryInv (s.consumer d.session) d
  worker : ∀ w, WorkerInv s (s.worker w)
  callback : ∀ cb ∈ s.callbacks, CallbackInv s cb
  ack : ∀ a ∈ s.acks, ∃ d ∈ s.archived, d.toAck = a
  archived : ∀ d ∈ s.archived, d ∈ s.deliveries
  unique : ∀ k, s.copies k ≤ if k.2 < s.nextTag k.1 then 1 else 0
  counter : s.inflight = ∑ w, (s.worker w).counted

theorem Inv.init : Inv (State.init n μ) where
  io _ := by
    refine ⟨?_, rfl, rfl, ?_⟩
    · intro conn hconn
      exact absurd hconn (by simp [Stage.conn])
    · intro h
      exact absurd rfl h
  delivery := by simp [State.init]
  worker _ := ⟨by simp [State.init], by simp [State.init], trivial⟩
  callback := by simp [State.init]
  ack := by simp [State.init]
  archived := by simp [State.init]
  unique k := by
    have hzero : (State.init n μ).copies k = 0 := by
      simp [State.copies, State.init, Worker.copies, workCopies, Pc.copies, callbackCopies]
    rw [hzero]
    exact Nat.zero_le _
  counter := by simp [State.init, Worker.counted]

/-! ## What later states keep -/

/-- A later state: nothing is taken from the histories and no delivered payload is settled again. -/
structure Extends (s s' : State n μ) : Prop where
  deliveries : ∀ d ∈ s.deliveries, d ∈ s'.deliveries
  archived : ∀ d ∈ s.archived, d ∈ s'.archived
  settled : ∀ d ∈ s.deliveries, Settled s' d → Settled s d

section Mono

variable {s s' : State n μ}

theorem Carries.mono (h : Extends s s') {op : Op} {d : Work μ} (hd : Carries s op d) :
    Carries s' op d :=
  ⟨h.deliveries d hd.1, fun hop => h.archived d (hd.2 hop)⟩

theorem ConnOk.mono (h : Extends s s') {d : Work μ} {conn : Option Conn} (hd : d ∈ s.deliveries)
    (hconn : ConnOk s d conn) : ConnOk s' d conn :=
  ⟨hconn.1, fun hs => hconn.2 (h.settled d hd hs)⟩

theorem ChannelOk.mono (h : Extends s s') {d : Work μ} {ch : Option Channel} (hd : d ∈ s.deliveries)
    (hch : ChannelOk s d ch) : ChannelOk s' d ch :=
  fun hs => hch (h.settled d hd hs)

theorem CallbackInv.mono (h : Extends s s') {cb : Callback μ} (hcb : CallbackInv s cb) :
    CallbackInv s' cb where
  carries := hcb.carries.mono h
  conn := hcb.conn.mono h hcb.carries.1
  channel := hcb.channel.mono h hcb.carries.1
  generation := hcb.generation

theorem PcInv.mono (h : Extends s s') {pc : Pc μ} (hpc : PcInv s pc) : PcInv s' pc := by
  cases pc with
  | idle => trivial
  | taken d => exact h.deliveries d hpc
  | counted d => exact h.deliveries d hpc
  | appending d => exact h.deliveries d hpc
  | readConnection op d => exact Carries.mono h hpc
  | readChannel op d conn =>
      obtain ⟨hd, hconn⟩ := hpc
      exact ⟨hd.mono h, hconn.mono h hd.1⟩
  | readGeneration op d conn ch =>
      obtain ⟨hd, hconn, hch⟩ := hpc
      exact ⟨hd.mono h, hconn.mono h hd.1, hch.mono h hd.1⟩
  | readReconnect op d conn ch generation =>
      obtain ⟨hd, hconn, hch⟩ := hpc
      exact ⟨hd.mono h, hconn.mono h hd.1, hch.mono h hd.1⟩
  | schedule cb => exact CallbackInv.mono h hpc
  | flushed => trivial

theorem WorkerInv.mono (h : Extends s s') {v : Worker μ} (hv : WorkerInv s v) : WorkerInv s' v where
  queue d hd := h.deliveries d (hv.queue d hd)
  held d hd := h.deliveries d (hv.held d hd)
  pc := hv.pc.mono h

end Mono

/-! ## Consumer threads -/

/-- The connection of a session is one of its own. -/
theorem IoInv.conn_session {i : ℕ} {c : Consumer} (h : IoInv i c) {conn : Conn}
    (hconn : c.connection = some conn) : conn.session = i := by
  have hstage : ∀ stage : Stage, stage.Owned i →
      c.connection = stage.boundChannel.map Channel.conn → conn.session = i := by
    intro stage howned heq
    rw [hconn] at heq
    cases stage with
    | bound ch => exact howned conn heq.symm
    | consuming ch => exact howned conn heq.symm
    | start => simp [Stage.boundChannel] at heq
    | opened ch => simp [Stage.boundChannel] at heq
    | unbound conn' => simp [Stage.boundChannel] at heq
  unfold IoInv at h
  split at h
  · exact hstage _ h.1 h.2.1
  · exact hstage _ h.1 h.2
  · exact hstage _ h.1 h.2.1
  · exact hstage _ h.1 h.2.1

/-- **What the thread of a session can do**: open a connection, begin a bind, make the next write of
one, reset the flag, or start over. -/
theorem ioStep_cases {i : ℕ} {c c' : Consumer} {a : IoAction} (hstep : ioStep i c a = some c') :
    (c.io = .at .start ∧
      c' = { c with io := .at (.opened ⟨⟨i, c.opened⟩, 1⟩), opened := c.opened + 1 }) ∨
    (∃ stage next, c.io = .at stage ∧ (stage.Owned i → next.Owned i) ∧ c' = c.bind next) ∨
    (∃ next, c.io = .writeChannel next ∧
      c' = { c with channel := next.boundChannel, io := .writeGeneration next }) ∨
    (∃ next, c.io = .writeGeneration next ∧
      c' = { c with generation := c.generation + 1, io := .writeReconnect next }) ∨
    (∃ next, c.io = .writeReconnect next ∧
      c' = { c with reconnectRequested := false, io := .at next }) ∨
    (c' = { c with reconnectRequested := false }) ∨
    (∃ conn, c.io = .at (.unbound conn) ∧
      c' = { c with reconnectRequested := false, io := .at .start }) := by
  cases a with
  | connect =>
      simp only [ioStep] at hstep
      split at hstep
      · next hio => exact Or.inl ⟨hio, (Option.some.inj hstep).symm⟩
      · exact absurd hstep (by simp)
  | bindFirst =>
      simp only [ioStep] at hstep
      split at hstep
      · next ch hio =>
          exact Or.inr (Or.inl ⟨_, Stage.bound ch, hio, fun h => h, (Option.some.inj hstep).symm⟩)
      · exact absurd hstep (by simp)
  | bindSecond number =>
      simp only [ioStep] at hstep
      split at hstep
      · next ch hio =>
          exact Or.inr (Or.inl ⟨_, Stage.consuming ⟨ch.conn, number⟩, hio, fun h => h, (Option.some.inj hstep).symm⟩)
      · exact absurd hstep (by simp)
  | unbind =>
      simp only [ioStep] at hstep
      split at hstep
      · next stage hio =>
          exact Or.inr (Or.inl ⟨_, Stage.unbound stage.conn, hio, fun h => h, (Option.some.inj hstep).symm⟩)
      · exact absurd hstep (by simp)
  | writeChannel =>
      simp only [ioStep] at hstep
      split at hstep
      · next next hio =>
          exact Or.inr (Or.inr (Or.inl ⟨next, hio, (Option.some.inj hstep).symm⟩))
      · exact absurd hstep (by simp)
  | writeGeneration =>
      simp only [ioStep] at hstep
      split at hstep
      · next next hio =>
          exact Or.inr (Or.inr (Or.inr (Or.inl ⟨next, hio, (Option.some.inj hstep).symm⟩)))
      · exact absurd hstep (by simp)
  | writeReconnect =>
      simp only [ioStep] at hstep
      split at hstep
      · next next hio =>
          exact Or.inr (Or.inr (Or.inr (Or.inr
            (Or.inl ⟨next, hio, (Option.some.inj hstep).symm⟩))))
      · exact absurd hstep (by simp)
  | clearReconnect =>
      simp only [ioStep] at hstep
      split at hstep
      · exact Or.inr (Or.inr (Or.inr (Or.inr (Or.inr (Or.inl (Option.some.inj hstep).symm)))))
      · exact absurd hstep (by simp)
  | close =>
      simp only [ioStep] at hstep
      split at hstep
      · next conn hio =>
          exact Or.inr (Or.inr (Or.inr (Or.inr (Or.inr
            (Or.inr ⟨conn, hio, (Option.some.inj hstep).symm⟩)))))
      · exact absurd hstep (by simp)

/-- The thread of a session keeps what is bound in step with where it is. -/
theorem IoInv.ioStep {i : ℕ} {c c' : Consumer} (h : IoInv i c) {a : IoAction}
    (hstep : ioStep i c a = some c') : IoInv i c' := by
  unfold IoInv at h
  rcases ioStep_cases hstep with ⟨hio, rfl⟩ | ⟨stage, next, hio, howned, rfl⟩ | ⟨next, hio, rfl⟩ |
    ⟨next, hio, rfl⟩ | ⟨next, hio, rfl⟩ | rfl | ⟨conn, hio, rfl⟩
  · rw [hio] at h
    refine ⟨?_, h.2.1, h.2.2.1, fun hne => absurd rfl hne⟩
    intro conn hconn
    rw [← Option.some.inj hconn]
  · rw [hio] at h
    exact ⟨howned h.1, rfl⟩
  · rw [hio] at h
    exact ⟨h.1, h.2, rfl⟩
  · rw [hio] at h
    exact ⟨h.1, h.2.1, h.2.2, Nat.succ_pos _⟩
  · rw [hio] at h
    exact ⟨h.1, h.2.1, h.2.2.1, fun _ => h.2.2.2⟩
  · exact h
  · rw [hio] at h
    refine ⟨?_, h.2.1, h.2.2.1, fun hne => absurd rfl hne⟩
    intro conn hconn
    exact absurd hconn (by simp [Stage.conn])

/-- A delivered payload stays behind the generation of its session. -/
theorem DeliveryInv.ioStep {i : ℕ} {c c' : Consumer} {d : Work μ} (h : DeliveryInv c d)
    {a : IoAction} (hstep : ioStep i c a = some c') : DeliveryInv c' d := by
  obtain ⟨hpos, hle, heq⟩ := h
  rcases ioStep_cases hstep with ⟨hio, rfl⟩ | ⟨stage, next, hio, -, rfl⟩ | ⟨next, hio, rfl⟩ |
    ⟨next, hio, rfl⟩ | ⟨next, hio, rfl⟩ | rfl | ⟨conn, hio, rfl⟩
  · refine ⟨hpos, hle, ?_⟩
    intro hgen
    rw [hio] at heq
    simpa using heq hgen
  · exact ⟨hpos, hle, fun _ => Or.inr ⟨next, Or.inl rfl⟩⟩
  · exact ⟨hpos, hle, fun _ => Or.inr ⟨next, Or.inr rfl⟩⟩
  · refine ⟨hpos, Nat.le_succ_of_le hle, ?_⟩
    intro hgen
    have hgen : d.ackGeneration = c.generation + 1 := hgen
    omega
  · refine ⟨hpos, hle, ?_⟩
    intro hgen
    rw [hio] at heq
    simpa using heq hgen
  · exact ⟨hpos, hle, heq⟩
  · refine ⟨hpos, hle, ?_⟩
    intro hgen
    rw [hio] at heq
    simpa using heq hgen

/-- No step of the thread settles a payload again. -/
theorem settled_of_ioStep {i : ℕ} {c c' : Consumer} {d : Work μ} (h : DeliveryInv c d)
    {a : IoAction} (hstep : ioStep i c a = some c') (hgen : c'.generation = d.ackGeneration)
    (hio' : c'.io = .at (.consuming d.channel)) :
    c.generation = d.ackGeneration ∧ c.io = .at (.consuming d.channel) := by
  obtain ⟨-, -, heq⟩ := h
  rcases ioStep_cases hstep with ⟨hio, rfl⟩ | ⟨stage, next, hio, -, rfl⟩ | ⟨next, hio, rfl⟩ |
    ⟨next, hio, rfl⟩ | ⟨next, hio, rfl⟩ | rfl | ⟨conn, hio, rfl⟩
  · exact absurd hio' (by simp)
  · exact absurd hio' (by simp [Consumer.bind])
  · exact absurd hio' (by simp)
  · exact absurd hio' (by simp)
  · -- the generation was raised before this last write of the bind
    have hgen : c.generation = d.ackGeneration := hgen
    rw [hio] at heq
    exact absurd (heq hgen.symm) (by simp)
  · exact ⟨hgen, hio'⟩
  · exact absurd hio' (by simp)

/-- A step of the thread of one session. -/
theorem Inv.setConsumer {s : State n μ} (h : Inv s) {i : ℕ} {c : Consumer} (hio : IoInv i c)
    (hdelivery : ∀ d ∈ s.deliveries, d.session = i → DeliveryInv c d)
    (hsettled : ∀ d ∈ s.deliveries, d.session = i → c.generation = d.ackGeneration →
      c.io = .at (.consuming d.channel) → Settled s d) : Inv (s.setConsumer i c) := by
  have hself : ∀ j, j = i → (s.setConsumer i c).consumer j = c := by
    rintro j rfl
    exact Function.update_self j c s.consumer
  have hother : ∀ j, j ≠ i → (s.setConsumer i c).consumer j = s.consumer j := by
    intro j hj
    exact Function.update_of_ne hj c s.consumer
  have hext : Extends s (s.setConsumer i c) := by
    refine ⟨fun _ hd => hd, fun _ hd => hd, ?_⟩
    rintro d hd ⟨hgen, hat⟩
    by_cases hi : d.session = i
    · rw [hself _ hi] at hgen hat
      exact hsettled d hd hi hgen hat
    · rw [hother _ hi] at hgen hat
      exact ⟨hgen, hat⟩
  constructor
  · intro j
    by_cases hj : j = i
    · rw [hself j hj, hj]
      exact hio
    · rw [hother j hj]
      exact h.io j
  · intro d hd
    by_cases hi : d.session = i
    · rw [hself _ hi]
      exact hdelivery d hd hi
    · rw [hother _ hi]
      exact h.delivery d hd
  · intro w
    exact (h.worker w).mono hext
  · intro cb hcb
    exact (h.callback cb hcb).mono hext
  · exact h.ack
  · exact h.archived
  · exact h.unique
  · exact h.counter

theorem Inv.ioStep {s : State n μ} (h : Inv s) {i : ℕ} {a : IoAction} {c : Consumer}
    (hstep : ioStep i (s.consumer i) a = some c) : Inv (s.setConsumer i c) := by
  apply h.setConsumer ((h.io i).ioStep hstep)
  · rintro d hd rfl
    exact (h.delivery d hd).ioStep hstep
  · rintro d hd rfl hgen hat
    exact settled_of_ioStep (h.delivery d hd) hstep hgen hat

theorem Inv.requestReconnect {s : State n μ} (h : Inv s) (i : ℕ) :
    Inv (s.setConsumer i { s.consumer i with reconnectRequested := true }) := by
  apply h.setConsumer
  · exact h.io i
  · rintro d hd rfl
    exact h.delivery d hd
  · rintro d hd rfl hgen hat
    exact ⟨hgen, hat⟩

/-! ## Workers -/

/-- The state after a worker has changed and perhaps the counter, the callbacks or the archive. -/
def State.afterWorker (s : State n μ) (w : Fin n) (v : Worker μ) (callbacks : List (Callback μ))
    (inflight : ℕ) (archived : List (Work μ)) : State n μ :=
  { s.setWorker w v with callbacks := callbacks, inflight := inflight, archived := archived }

theorem extends_afterWorker {s : State n μ} (w : Fin n) (v : Worker μ)
    (callbacks : List (Callback μ)) (inflight : ℕ) {archived : List (Work μ)}
    (harchived : ∀ d ∈ s.archived, d ∈ archived) :
    Extends s (s.afterWorker w v callbacks inflight archived) where
  deliveries _ hd := hd
  archived := harchived
  settled _ _ hd := hd

/-- A step of a worker keeps the invariant when what it holds now is in order, when it does not multiply
what can be acknowledged and when it keeps the counter. -/
theorem Inv.afterWorker {s : State n μ} (h : Inv s) {w : Fin n} {v : Worker μ}
    {callbacks : List (Callback μ)} {inflight : ℕ} {archived : List (Work μ)}
    (harchived : ∀ d ∈ s.archived, d ∈ archived) (hdelivered : ∀ d ∈ archived, d ∈ s.deliveries)
    (hv : WorkerInv (s.afterWorker w v callbacks inflight archived) v)
    (hcallbacks : ∀ cb ∈ callbacks, CallbackInv (s.afterWorker w v callbacks inflight archived) cb)
    (hcopies : ∀ k, v.copies k + callbackCopies k callbacks ≤
      (s.worker w).copies k + callbackCopies k s.callbacks)
    (hcounter : inflight + (s.worker w).counted = s.inflight + v.counted) :
    Inv (s.afterWorker w v callbacks inflight archived) := by
  have hext := extends_afterWorker w v callbacks inflight harchived
  constructor
  · exact h.io
  · exact h.delivery
  · intro j
    by_cases hj : j = w
    · subst hj
      show WorkerInv _ (Function.update s.worker j v j)
      rw [Function.update_self]
      exact hv
    · show WorkerInv _ (Function.update s.worker w v j)
      rw [Function.update_of_ne hj]
      exact (h.worker j).mono hext
  · exact hcallbacks
  · intro a ha
    obtain ⟨d, hd, hda⟩ := h.ack a ha
    exact ⟨d, harchived d hd, hda⟩
  · exact hdelivered
  · intro k
    refine le_trans ?_ (h.unique k)
    have hsum := sum_update s.worker w v (Worker.copies k)
    have hk := hcopies k
    show ∑ j, (Function.update s.worker w v j).copies k + callbackCopies k callbacks +
        s.acks.countP _ ≤ ∑ j, (s.worker j).copies k + callbackCopies k s.callbacks + s.acks.countP _
    omega
  · have hsum := sum_update s.worker w v Worker.counted
    have hold := h.counter
    show inflight = ∑ j, (Function.update s.worker w v j).counted
    omega

/-- A step of a worker that changes nothing but the worker. -/
theorem Inv.setWorker {s : State n μ} (h : Inv s) {w : Fin n} {v : Worker μ}
    (hv : WorkerInv s v) (hcopies : ∀ k, v.copies k ≤ (s.worker w).copies k)
    (hcounter : v.counted = (s.worker w).counted) : Inv (s.setWorker w v) := by
  have hext := extends_afterWorker w v s.callbacks s.inflight (fun d (hd : d ∈ s.archived) => hd)
  show Inv (s.afterWorker w v s.callbacks s.inflight s.archived)
  apply h.afterWorker (fun _ hd => hd) h.archived (hv.mono hext)
  · intro cb hcb
    exact (h.callback cb hcb).mono hext
  · intro k
    exact Nat.add_le_add_right (hcopies k) _
  · rw [hcounter]

/-- A step that only changes the place of a worker. -/
theorem Inv.setPc {s : State n μ} (h : Inv s) {w : Fin n} {pc : Pc μ} (hpc : PcInv s pc)
    (hcopies : ∀ k, pc.copies k ≤ (s.worker w).pc.copies k)
    (hcounter : ({ s.worker w with pc := pc } : Worker μ).counted = (s.worker w).counted) :
    Inv (s.setPc w pc) := by
  have hv : WorkerInv s { s.worker w with pc := pc } :=
    ⟨(h.worker w).queue, (h.worker w).held, hpc⟩
  refine h.setWorker hv ?_ hcounter
  intro k
  exact Nat.add_le_add_left (hcopies k) _

section WorkerSteps

variable {s : State n μ} {w : Fin n} {d : Work μ}

/-- A worker that is somewhere has what the invariant says of that place. -/
theorem Inv.pc (h : Inv s) {pc : Pc μ} (hpc : (s.worker w).pc = pc) : PcInv s pc :=
  hpc ▸ (h.worker w).pc

theorem Inv.get (h : Inv s) {queue : List (Work μ)} (hpc : (s.worker w).pc = .idle)
    (hqueue : (s.worker w).queue = d :: queue) :
    Inv (s.setWorker w ⟨queue, (s.worker w).held, .taken d⟩) := by
  have hmem := (h.worker w).queue
  rw [hqueue] at hmem
  apply h.setWorker
  · exact ⟨fun e he => hmem e (List.mem_cons_of_mem d he), (h.worker w).held,
      hmem d List.mem_cons_self⟩
  · intro k
    unfold Worker.copies workCopies
    rw [hpc, hqueue, List.countP_cons]
    simp only [Pc.copies, decide_eq_true_eq]
    omega
  · simp [Worker.counted, hpc]

theorem Inv.count (h : Inv s) (hpc : (s.worker w).pc = .taken d) :
    Inv { s.setPc w (.counted d) with inflight := s.inflight + 1 } := by
  have hext := extends_afterWorker w { s.worker w with pc := .counted d } s.callbacks
    (s.inflight + 1) (fun d (hd : d ∈ s.archived) => hd)
  show Inv (s.afterWorker w { s.worker w with pc := .counted d } s.callbacks (s.inflight + 1)
    s.archived)
  apply h.afterWorker (fun _ hd => hd) h.archived
  · exact ⟨(h.worker w).queue, (h.worker w).held, h.pc hpc⟩
  · intro cb hcb
    exact (h.callback cb hcb).mono hext
  · intro k
    unfold Worker.copies
    rw [hpc]
    exact le_refl _
  · simp [Worker.counted, hpc]
    omega

theorem Inv.hold (h : Inv s) (hpc : (s.worker w).pc = .counted d) :
    Inv (s.setWorker w ⟨(s.worker w).queue, (s.worker w).held ++ [d], .idle⟩) := by
  have hd : d ∈ s.deliveries := h.pc hpc
  apply h.setWorker
  · refine ⟨(h.worker w).queue, ?_, trivial⟩
    intro e he
    rcases List.mem_append.mp he with he | he
    · exact (h.worker w).held e he
    · rw [List.mem_singleton.mp he]
      exact hd
  · intro k
    unfold Worker.copies workCopies
    rw [hpc, List.countP_append, List.countP_singleton]
    simp only [Pc.copies, decide_eq_true_eq]
    omega
  · simp [Worker.counted, hpc]

theorem Inv.flushHeld (h : Inv s) {k : ℕ} (hpc : (s.worker w).pc = .idle)
    (hheld : (s.worker w).held[k]? = some d) :
    Inv (s.setWorker w ⟨(s.worker w).queue, (s.worker w).held.eraseIdx k, .appending d⟩) := by
  have hperm : ((s.worker w).held).Perm (d :: (s.worker w).held.eraseIdx k) := by
    obtain ⟨hk, hget⟩ := List.getElem?_eq_some_iff.mp hheld
    rw [← hget]
    exact (List.getElem_cons_eraseIdx_perm hk).symm
  apply h.setWorker
  · refine ⟨(h.worker w).queue, ?_, (h.worker w).held d (List.mem_of_getElem? hheld)⟩
    intro e he
    exact (h.worker w).held e (List.mem_of_mem_eraseIdx he)
  · intro key
    unfold Worker.copies workCopies
    rw [hpc, hperm.countP_eq, List.countP_cons]
    simp only [Pc.copies, decide_eq_true_eq]
    omega
  · have hlen := hperm.length_eq
    simp only [List.length_cons] at hlen
    simp only [Worker.counted, hpc]
    omega

/-- The payload is appended before the acknowledgement is on its way. -/
theorem Inv.append (h : Inv s) (hpc : (s.worker w).pc = .appending d) :
    Inv { s.setPc w (.readConnection .ack d) with archived := s.archived ++ [d] } := by
  have hd : d ∈ s.deliveries := h.pc hpc
  have hsub : ∀ e ∈ s.archived, e ∈ s.archived ++ [d] := fun e he => List.mem_append_left _ he
  have hext := extends_afterWorker w { s.worker w with pc := .readConnection .ack d } s.callbacks
    s.inflight hsub
  show Inv (s.afterWorker w { s.worker w with pc := .readConnection .ack d } s.callbacks s.inflight
    (s.archived ++ [d]))
  apply h.afterWorker hsub
  · intro e he
    rcases List.mem_append.mp he with he | he
    · exact h.archived e he
    · rw [List.mem_singleton.mp he]
      exact hd
  · exact ⟨(h.worker w).queue, (h.worker w).held, hd, fun _ => by simp [State.afterWorker]⟩
  · intro cb hcb
    exact (h.callback cb hcb).mono hext
  · intro k
    unfold Worker.copies
    rw [hpc]
    simp [Pc.copies]
  · simp [Worker.counted, hpc]

theorem Inv.appendFails (h : Inv s) (hpc : (s.worker w).pc = .appending d) :
    Inv (s.setPc w (.readConnection .nack d)) := by
  have hd : d ∈ s.deliveries := h.pc hpc
  apply h.setPc
  · exact ⟨hd, fun hop => absurd hop (by simp)⟩
  · intro k
    simp [Pc.copies]
  · simp [Worker.counted, hpc]

/-- A worker may go to the end of its flush from everywhere behind the count. -/
theorem Inv.toFlushed (h : Inv s) (hpc : (s.worker w).pc ≠ .idle)
    (hpc' : ∀ d, (s.worker w).pc ≠ .taken d) : Inv (s.setPc w .flushed) := by
  refine h.setPc (show PcInv s .flushed from trivial) ?_ ?_
  · intro k
    exact Nat.zero_le _
  · unfold Worker.counted
    dsimp only
    split
    · next heq => exact absurd heq hpc
    · next d heq => exact absurd heq (hpc' d)
    · rfl

theorem Inv.readConnection (h : Inv s) {op : Op} (hpc : (s.worker w).pc = .readConnection op d) :
    Inv (s.setPc w (.readChannel op d (s.consumer d.session).connection)) := by
  have hd : Carries s op d := h.pc hpc
  have hio := h.io d.session
  apply h.setPc
  · refine ⟨hd, fun c hc => hio.conn_session hc, ?_⟩
    rintro ⟨-, hat⟩
    simp only [IoInv, hat] at hio
    exact hio.2.1
  · intro k
    rw [hpc]
    exact le_refl _
  · simp [Worker.counted, hpc]

theorem Inv.readChannel (h : Inv s) {op : Op} {conn : Option Conn}
    (hpc : (s.worker w).pc = .readChannel op d conn) :
    Inv (s.setPc w (.readGeneration op d conn (s.consumer d.session).channel)) := by
  obtain ⟨hd, hconn⟩ : Carries s op d ∧ ConnOk s d conn := h.pc hpc
  have hio := h.io d.session
  apply h.setPc
  · refine ⟨hd, hconn, ?_⟩
    rintro ⟨-, hat⟩
    simp only [IoInv, hat] at hio
    exact hio.2.2.1
  · intro k
    rw [hpc]
    exact le_refl _
  · simp [Worker.counted, hpc]

theorem Inv.readGeneration (h : Inv s) {op : Op} {conn : Option Conn} {ch : Option Channel}
    (hpc : (s.worker w).pc = .readGeneration op d conn ch) :
    Inv (s.setPc w (.readReconnect op d conn ch (s.consumer d.session).generation)) := by
  have hreads : Carries s op d ∧ ConnOk s d conn ∧ ChannelOk s d ch := h.pc hpc
  apply h.setPc
  · exact hreads
  · intro k
    rw [hpc]
    exact le_refl _
  · simp [Worker.counted, hpc]

/-- The snapshot is made of what was read, and the generation is that of the delivery. -/
theorem snapshot_eq_some {op : Op} {conn : Option Conn} {ch : Option Channel} {generation : ℕ}
    {reconnect unusable : Bool} {cb : Callback μ} (hpos : 0 < d.ackGeneration)
    (h : snapshot op d conn ch generation reconnect unusable = some cb) :
    conn = some cb.conn ∧ ch = some cb.channel ∧ cb.op = op ∧ cb.work = d ∧
      cb.generation = d.ackGeneration := by
  unfold snapshot at h
  by_cases hgen : d.ackGeneration ≠ 0 ∧ generation ≠ d.ackGeneration
  · rw [if_pos hgen] at h
    exact absurd h (by simp)
  · rw [if_neg hgen] at h
    have hgen : generation = d.ackGeneration := by
      by_contra hne
      exact hgen ⟨by omega, hne⟩
    split at h
    · next conn ch =>
        by_cases hflag : (reconnect || unusable) = true
        · rw [if_pos hflag] at h
          exact absurd h (by simp)
        · rw [if_neg hflag] at h
          rw [← Option.some.inj h]
          exact ⟨rfl, rfl, rfl, rfl, hgen⟩
    · exact absurd h (by simp)

theorem Inv.readReconnect (h : Inv s) {op : Op} {conn : Option Conn} {ch : Option Channel}
    {generation : ℕ} {reconnect unusable : Bool} {cb : Callback μ}
    (hpc : (s.worker w).pc = .readReconnect op d conn ch generation)
    (hcb : snapshot op d conn ch generation reconnect unusable = some cb) :
    Inv (s.setPc w (.schedule cb)) := by
  obtain ⟨hd, hconn, hch⟩ : Carries s op d ∧ ConnOk s d conn ∧ ChannelOk s d ch := h.pc hpc
  obtain ⟨rfl, rfl, rfl, rfl, hgen⟩ := snapshot_eq_some (h.delivery d hd.1).1 hcb
  apply h.setPc
  · exact ⟨hd, hconn, hch, hgen⟩
  · intro k
    rw [hpc]
    exact le_refl _
  · simp [Worker.counted, hpc]

theorem Inv.schedule (h : Inv s) {cb : Callback μ} (hpc : (s.worker w).pc = .schedule cb) :
    Inv { s.setPc w .flushed with callbacks := s.callbacks ++ [cb] } := by
  have hcb : CallbackInv s cb := h.pc hpc
  have hext := extends_afterWorker w { s.worker w with pc := .flushed } (s.callbacks ++ [cb])
    s.inflight (fun d (hd : d ∈ s.archived) => hd)
  show Inv (s.afterWorker w { s.worker w with pc := .flushed } (s.callbacks ++ [cb]) s.inflight
    s.archived)
  apply h.afterWorker (fun _ hd => hd) h.archived
  · exact ⟨(h.worker w).queue, (h.worker w).held, trivial⟩
  · intro cb' hcb'
    rcases List.mem_append.mp hcb' with hcb' | hcb'
    · exact (h.callback cb' hcb').mono hext
    · rw [List.mem_singleton.mp hcb']
      exact hcb.mono hext
  · intro k
    unfold Worker.copies callbackCopies
    rw [hpc, List.countP_append, List.countP_singleton]
    simp only [Pc.copies, decide_eq_true_eq]
    omega
  · simp [Worker.counted, hpc]

theorem Inv.uncount (h : Inv s) (hpc : (s.worker w).pc = .flushed) :
    Inv { s.setPc w .idle with inflight := s.inflight - 1 } := by
  have hext := extends_afterWorker w { s.worker w with pc := .idle } s.callbacks
    (s.inflight - 1) (fun d (hd : d ∈ s.archived) => hd)
  show Inv (s.afterWorker w { s.worker w with pc := .idle } s.callbacks (s.inflight - 1) s.archived)
  apply h.afterWorker (fun _ hd => hd) h.archived
  · exact ⟨(h.worker w).queue, (h.worker w).held, trivial⟩
  · intro cb hcb
    exact (h.callback cb hcb).mono hext
  · intro k
    unfold Worker.copies
    rw [hpc]
    exact le_refl _
  · -- the counter counts this worker, so the floor at zero is not reached
    have hworker : (s.worker w).counted = (s.worker w).held.length + 1 := by
      simp only [Worker.counted, hpc]
    have hle : (s.worker w).counted ≤ s.inflight := by
      rw [h.counter]
      exact Finset.single_le_sum (f := fun j => (s.worker j).counted) (fun _ _ => Nat.zero_le _)
        (Finset.mem_univ w)
    have hidle : ({ s.worker w with pc := .idle } : Worker μ).counted =
        (s.worker w).held.length := rfl
    omega

end WorkerSteps

/-! ## Deliveries and callbacks -/

/-- A delivery keeps the invariant wherever `on_message` leaves the payload. -/
theorem Inv.delivered {s s' : State n μ} (h : Inv s) {d : Work μ}
    (hat : Settled s d) (htag : d.deliveryTag = s.nextTag d.channel)
    (hconsumer : s'.consumer = s.consumer) (hcallbacks : s'.callbacks = s.callbacks)
    (hnextTag : s'.nextTag = (s.recordDelivery d).nextTag)
    (hdeliveries : s'.deliveries = (s.recordDelivery d).deliveries)
    (harchived : ∀ e ∈ s'.archived, e ∈ s.archived ∨ e = d)
    (hkept : ∀ e ∈ s.archived, e ∈ s'.archived)
    (hworker : ∀ w, WorkerInv s (s.worker w) → WorkerInv s' (s'.worker w))
    (hack : ∀ a ∈ s'.acks, a ∈ s.acks ∨ (a = d.toAck ∧ d ∈ s'.archived))
    (hcopies : ∀ k, s'.copies k ≤ s.copies k + if d.key = k then 1 else 0)
    (hcounter : s'.inflight = ∑ w, (s'.worker w).counted) : Inv s' := by
  have hmem : ∀ e ∈ s.deliveries, e ∈ s'.deliveries := by
    intro e he
    rw [hdeliveries]
    exact List.mem_append_left _ he
  have hnew : d ∈ s'.deliveries := by
    rw [hdeliveries]
    exact List.mem_append_right _ (List.mem_singleton_self d)
  have hext : Extends s s' := by
    refine ⟨hmem, hkept, ?_⟩
    intro e _ he
    unfold Settled at he ⊢
    rw [hconsumer] at he
    exact he
  constructor
  · intro i
    rw [hconsumer]
    exact h.io i
  · intro e he
    rw [hconsumer]
    rw [hdeliveries] at he
    rcases List.mem_append.mp he with he | he
    · exact h.delivery e he
    · rw [List.mem_singleton.mp he]
      obtain ⟨hgen, hio⟩ := hat
      have hinv := h.io d.session
      simp only [IoInv, hio] at hinv
      have hpos := hinv.2.2.2 (by simp [Stage.boundChannel])
      exact ⟨by omega, by omega, fun _ => Or.inl hio⟩
  · intro w
    exact hworker w (h.worker w)
  · intro cb hcb
    rw [hcallbacks] at hcb
    exact (h.callback cb hcb).mono hext
  · intro a ha
    rcases hack a ha with ha | ⟨rfl, hd⟩
    · obtain ⟨e, he, hea⟩ := h.ack a ha
      exact ⟨e, hkept e he, hea⟩
    · exact ⟨d, hd, rfl⟩
  · intro e he
    rcases harchived e he with he | rfl
    · exact hmem e (h.archived e he)
    · exact hnew
  · intro k
    have hk := hcopies k
    have hold := h.unique k
    rw [hnextTag]
    by_cases hkey : d.key = k
    · -- the tag is new, so nothing of it was there
      subst hkey
      have hfresh : ¬ d.key.2 < s.nextTag d.key.1 := by
        show ¬ d.deliveryTag < s.nextTag d.channel
        omega
      have hnext : d.key.2 < (s.recordDelivery d).nextTag d.key.1 := by
        show d.deliveryTag < Function.update s.nextTag d.channel (d.deliveryTag + 1) d.channel
        rw [Function.update_self]
        omega
      rw [if_neg hfresh] at hold
      rw [if_pos rfl] at hk
      rw [if_pos hnext]
      omega
    · rw [if_neg hkey] at hk
      have hmono : s.nextTag k.1 ≤ (s.recordDelivery d).nextTag k.1 := by
        show _ ≤ Function.update s.nextTag d.channel (d.deliveryTag + 1) k.1
        by_cases hch : k.1 = d.channel
        · rw [hch, Function.update_self]
          omega
        · rw [Function.update_of_ne hch]
      split
      · split at hold <;> omega
      · split at hold <;> omega
  · exact hcounter

theorem WorkerInv.recordDelivery {s s' : State n μ} {v : Worker μ} (h : WorkerInv s v) {d : Work μ}
    (hconsumer : s'.consumer = s.consumer)
    (hdeliveries : s'.deliveries = (s.recordDelivery d).deliveries)
    (hkept : ∀ e ∈ s.archived, e ∈ s'.archived) : WorkerInv s' v := by
  apply h.mono
  refine ⟨?_, hkept, ?_⟩
  · intro e he
    rw [hdeliveries]
    exact List.mem_append_left _ he
  · intro e _ he
    unfold Settled at he ⊢
    rw [hconsumer] at he
    exact he

/-- A delivery that leaves no payload behind. -/
theorem Inv.recordDelivery {s : State n μ} (h : Inv s) {d : Work μ} (hat : Settled s d)
    (htag : d.deliveryTag = s.nextTag d.channel) : Inv (s.recordDelivery d) := by
  refine h.delivered hat htag rfl rfl rfl rfl (fun e he => Or.inl he) (fun e he => he) ?_
    (fun a ha => Or.inl ha) ?_ h.counter
  · intro w hw
    exact hw.recordDelivery rfl rfl (fun _ he => he)
  · intro k
    exact Nat.le_add_right _ _

theorem Inv.onMessage {s : State n μ} (h : Inv s) {d : Work μ} (hat : Settled s d)
    (htag : d.deliveryTag = s.nextTag d.channel) (route : Route n) : Inv (s.onMessage d route) := by
  have happended : ∀ e ∈ s.archived ++ [d], e ∈ s.archived ∨ e = d := by
    intro e he
    rcases List.mem_append.mp he with he | he
    · exact Or.inl he
    · exact Or.inr (List.mem_singleton.mp he)
  have hkept : ∀ e ∈ s.archived, e ∈ s.archived ++ [d] := fun e he => List.mem_append_left _ he
  cases route with
  -- the delivery goes to a worker: it stands in one queue more and in no acknowledgement
  | queue w =>
      refine h.delivered hat htag rfl rfl rfl rfl (fun e he => Or.inl he) (fun e he => he) ?_
        (fun a ha => Or.inl ha) ?_ ?_
      · intro j hj
        have hj' : WorkerInv (s.onMessage d (.queue w)) (s.worker j) :=
          hj.recordDelivery rfl rfl (fun _ he => he)
        -- only the queue of that worker grew, by a delivery that was recorded just before
        by_cases hw : j = w
        · subst hw
          show WorkerInv _ (Function.update s.worker j _ j)
          rw [Function.update_self]
          refine ⟨?_, hj'.held, hj'.pc⟩
          intro e he
          rcases List.mem_append.mp he with he | he
          · exact hj'.queue e he
          · rw [List.mem_singleton.mp he]
            exact List.mem_append_right _ (List.mem_singleton_self d)
        · show WorkerInv _ (Function.update s.worker w _ j)
          rw [Function.update_of_ne hw]
          exact hj'
      · intro k
        have hsum := sum_update s.worker w
          { s.worker w with queue := (s.worker w).queue ++ [d] } (Worker.copies k)
        have hv : ({ s.worker w with queue := (s.worker w).queue ++ [d] } : Worker μ).copies k =
            (s.worker w).copies k + if d.key = k then 1 else 0 := by
          unfold Worker.copies workCopies
          rw [List.countP_append, List.countP_singleton]
          simp only [decide_eq_true_eq]
          omega
        show ∑ j, (Function.update s.worker w _ j).copies k + callbackCopies k s.callbacks +
          s.acks.countP _ ≤ ∑ j, (s.worker j).copies k + callbackCopies k s.callbacks +
            s.acks.countP _ + _
        omega
      · have hsum := sum_update s.worker w
          { s.worker w with queue := (s.worker w).queue ++ [d] } Worker.counted
        have hv : ({ s.worker w with queue := (s.worker w).queue ++ [d] } : Worker μ).counted =
            (s.worker w).counted := rfl
        have hold := h.counter
        show s.inflight = ∑ j, (Function.update s.worker w _ j).counted
        omega
  -- the reader stores it itself: it is archived before it may be acknowledged
  | sync ok acked =>
      rcases ok with _ | _
      · exact h.recordDelivery hat htag
      · rcases acked with _ | _
        · refine h.delivered hat htag rfl rfl rfl rfl happended hkept ?_ (fun a ha => Or.inl ha) ?_
            h.counter
          · intro w hw
            exact hw.recordDelivery rfl rfl hkept
          · intro k
            exact Nat.le_add_right _ _
        · refine h.delivered hat htag rfl rfl rfl rfl happended hkept ?_ ?_ ?_ h.counter
          · intro w hw
            exact hw.recordDelivery rfl rfl hkept
          · intro a ha
            rcases List.mem_append.mp ha with ha | ha
            · exact Or.inl ha
            · exact Or.inr ⟨List.mem_singleton.mp ha,
                List.mem_append_right _ (List.mem_singleton_self d)⟩
          · intro k
            have hone : (s.acks ++ [d.toAck]).countP (fun a => a.key = k) =
                s.acks.countP (fun a => a.key = k) + if d.key = k then 1 else 0 := by
              rw [List.countP_append, List.countP_singleton]
              simp only [decide_eq_true_eq]
              rfl
            show _ + (s.acks ++ [d.toAck]).countP _ ≤ _
            rw [hone]
            exact le_of_eq (Nat.add_assoc _ _ _).symm
  | pause => exact h.recordDelivery hat htag

/-- **A callback that is not stale acknowledges the delivery it was made for.** -/
theorem Inv.ack_eq {s : State n μ} (h : Inv s) {i : ℕ} {stage : Stage} {cb : Callback μ}
    (hat : (s.consumer i).io = .at stage) (hconn : stage.conn = some cb.conn)
    (hcb : cb ∈ s.callbacks) (hfresh : s.callbackStale cb = false) :
    (s.consumer cb.work.session).generation = cb.work.ackGeneration ∧
      cb.channel = cb.work.channel := by
  have hinv := h.callback cb hcb
  -- the callback runs on the thread of its own session
  have hi : cb.work.session = i := by
    have hio := h.io i
    simp only [IoInv, hat] at hio
    rw [← hinv.conn.1 cb.conn rfl]
    exact hio.1 cb.conn hconn
  have hgen : (s.consumer cb.work.session).generation = cb.work.ackGeneration := by
    have hsame : (s.consumer cb.work.session).generation = cb.generation := by
      unfold State.callbackStale at hfresh
      simp only [Bool.or_eq_false_iff, bne_eq_false_iff_eq] at hfresh
      exact hfresh.1.1
    rw [hsame, hinv.generation]
  refine ⟨hgen, ?_⟩
  -- which is between two binds, so with this generation it still consumes on the same channel
  have hcons : (s.consumer cb.work.session).io = .at (.consuming cb.work.channel) := by
    rcases (h.delivery cb.work hinv.carries.1).2.2 hgen.symm with hcons | ⟨next, hw | hw⟩
    · exact hcons
    · rw [hi, hat] at hw
      exact absurd hw (by simp)
    · rw [hi, hat] at hw
      exact absurd hw (by simp)
  exact Option.some.inj (hinv.channel ⟨hgen, hcons⟩)

/-- A callback that has run keeps the invariant when what it acknowledges was appended and no longer
waits. -/
theorem Inv.afterCallback {s : State n μ} (h : Inv s) {callbacks : List (Callback μ)}
    {acks : List Ack} (hcallbacks : ∀ cb ∈ callbacks, cb ∈ s.callbacks)
    (hacks : ∀ a ∈ acks, ∃ d ∈ s.archived, d.toAck = a)
    (hcopies : ∀ k, callbackCopies k callbacks + acks.countP (fun a => a.key = k) ≤
      callbackCopies k s.callbacks + s.acks.countP (fun a => a.key = k)) :
    Inv { s with callbacks := callbacks, acks := acks } := by
  have hext : Extends s { s with callbacks := callbacks, acks := acks } :=
    ⟨fun _ hd => hd, fun _ hd => hd, fun _ _ hd => hd⟩
  constructor
  · exact h.io
  · exact h.delivery
  · intro w
    exact (h.worker w).mono hext
  · intro cb hcb
    exact (h.callback cb (hcallbacks cb hcb)).mono hext
  · exact hacks
  · exact h.archived
  · intro k
    refine le_trans ?_ (h.unique k)
    have hk := hcopies k
    show ∑ j, (s.worker j).copies k + callbackCopies k callbacks + acks.countP _ ≤
      ∑ j, (s.worker j).copies k + callbackCopies k s.callbacks + s.acks.countP _
    omega
  · exact h.counter

theorem Inv.runCallback {s : State n μ} (h : Inv s) {i k : ℕ} {stage : Stage} {cb : Callback μ}
    (hat : (s.consumer i).io = .at stage) (hconn : stage.conn = some cb.conn)
    (hcb : s.callbacks[k]? = some cb) (ok : Bool) :
    Inv ({ s with callbacks := s.callbacks.eraseIdx k }.perform cb ok) := by
  have hmem : cb ∈ s.callbacks := List.mem_of_getElem? hcb
  have hrest : ∀ cb' ∈ s.callbacks.eraseIdx k, cb' ∈ s.callbacks :=
    fun cb' hcb' => List.mem_of_mem_eraseIdx hcb'
  have hcount : ∀ key, callbackCopies key s.callbacks =
      callbackCopies key (s.callbacks.eraseIdx k) +
        if cb.op = .ack ∧ cb.work.key = key then 1 else 0 := by
    intro key
    obtain ⟨hk, hget⟩ := List.getElem?_eq_some_iff.mp hcb
    have hperm : (cb :: s.callbacks.eraseIdx k).Perm s.callbacks := by
      rw [← hget]
      exact List.getElem_cons_eraseIdx_perm hk
    unfold callbackCopies
    rw [← hperm.countP_eq, List.countP_cons]
    simp only [decide_eq_true_eq]
  unfold State.perform
  -- a stale callback, one that fails and a nack all leave the acknowledgements as they were
  by_cases hskip : State.callbackStale { s with callbacks := s.callbacks.eraseIdx k } cb = true ∨
      ok = false ∨ cb.op = .nack
  · rw [if_pos hskip]
    apply h.afterCallback hrest h.ack
    intro key
    have hkey := hcount key
    omega
  · rw [if_neg hskip]
    rw [not_or, not_or] at hskip
    obtain ⟨hstale, -, hop⟩ := hskip
    have hop : cb.op = .ack := by
      cases hcbop : cb.op with
      | ack => rfl
      | nack => exact absurd hcbop hop
    have hfresh : s.callbackStale cb = false := by
      simpa [State.callbackStale] using hstale
    -- the callback is fresh, so the channel and the generation are still those of its delivery
    obtain ⟨hgen, hch⟩ := h.ack_eq hat hconn hmem hfresh
    have hack : (⟨cb.work.session, (s.consumer cb.work.session).generation, cb.channel,
        cb.work.deliveryTag⟩ : Ack) = cb.work.toAck := by
      rw [hgen, hch]
      rfl
    show Inv { s with
      callbacks := s.callbacks.eraseIdx k
      acks := s.acks ++ [⟨cb.work.session, (s.consumer cb.work.session).generation, cb.channel,
        cb.work.deliveryTag⟩] }
    rw [hack]
    apply h.afterCallback hrest
    · intro a ha
      rcases List.mem_append.mp ha with ha | ha
      · exact h.ack a ha
      · exact ⟨cb.work, (h.callback cb hmem).carries.2 hop, (List.mem_singleton.mp ha).symm⟩
    · intro key
      have hkey := hcount key
      have hone : (if cb.work.toAck.key = key then 1 else 0) =
          if cb.op = Op.ack ∧ cb.work.key = key then 1 else 0 := by
        simp only [hop, true_and]
        rfl
      rw [List.countP_append, List.countP_singleton]
      simp only [decide_eq_true_eq]
      omega

/-! ## Runs -/

/-- **One action of any thread keeps the invariant.** -/
theorem Inv.step {s s' : State n μ} (h : Inv s) {a : Action n μ} (hstep : step s a = some s') :
    Inv s' := by
  -- one lemma an action; a disabled action is no step
  cases a with
  | io i a =>
      obtain ⟨c, hc, rfl⟩ := Option.map_eq_some_iff.mp hstep
      exact h.ioStep hc
  | requestReconnect i =>
      cases hstep
      exact h.requestReconnect i
  | deliver i route message =>
      simp only [AckProtocol.step] at hstep
      split at hstep
      · next ch hat =>
          cases hstep
          exact h.onMessage ⟨rfl, hat⟩ rfl route
      · exact absurd hstep (by simp)
  | runCallback i k ok =>
      simp only [AckProtocol.step] at hstep
      split at hstep
      · next stage cb hat hcb =>
          -- a callback runs in the loop of the connection it was scheduled on
          by_cases hconn : stage.conn = some cb.conn
          · rw [if_pos hconn] at hstep
            cases hstep
            exact h.runCallback hat hconn hcb ok
          · rw [if_neg hconn] at hstep
            exact absurd hstep (by simp)
      · exact absurd hstep (by simp)
  | get w =>
      simp only [AckProtocol.step] at hstep
      split at hstep
      · next d queue hpc hqueue =>
          cases hstep
          exact h.get hpc hqueue
      · exact absurd hstep (by simp)
  | count w =>
      simp only [AckProtocol.step] at hstep
      split at hstep
      · next d hpc =>
          cases hstep
          exact h.count hpc
      · exact absurd hstep (by simp)
  | hold w =>
      simp only [AckProtocol.step] at hstep
      split at hstep
      · next d hpc =>
          cases hstep
          exact h.hold hpc
      · exact absurd hstep (by simp)
  | flushNow w =>
      simp only [AckProtocol.step] at hstep
      split at hstep
      · next d hpc =>
          cases hstep
          -- the worker keeps what it has counted
          have hd : PcInv s (.counted d) := h.pc hpc
          refine h.setPc (show PcInv s (.appending d) from hd) ?_ ?_
          · intro k
            rw [hpc]
            exact le_refl _
          · simp [Worker.counted, hpc]
      · exact absurd hstep (by simp)
  | flushHeld w k =>
      simp only [AckProtocol.step] at hstep
      split at hstep
      · next d hpc hheld =>
          cases hstep
          exact h.flushHeld hpc hheld
      · exact absurd hstep (by simp)
  | append w ok dead =>
      simp only [AckProtocol.step] at hstep
      split at hstep
      · next d hpc =>
          -- an append that fails is a nack, or the death of the thread
          cases ok with
          | true =>
              cases hstep
              exact h.append hpc
          | false =>
              cases dead with
              | true =>
                  cases hstep
                  exact h.toFlushed (by simp [hpc]) (by simp [hpc])
              | false =>
                  cases hstep
                  exact h.appendFails hpc
      · exact absurd hstep (by simp)
  | readConnection w =>
      simp only [AckProtocol.step] at hstep
      split at hstep
      · next op d hpc =>
          cases hstep
          exact h.readConnection hpc
      · exact absurd hstep (by simp)
  | readChannel w =>
      simp only [AckProtocol.step] at hstep
      split at hstep
      · next op d conn hpc =>
          cases hstep
          exact h.readChannel hpc
      · exact absurd hstep (by simp)
  | readGeneration w =>
      simp only [AckProtocol.step] at hstep
      split at hstep
      · next op d conn ch hpc =>
          cases hstep
          exact h.readGeneration hpc
      · exact absurd hstep (by simp)
  | readReconnect w unusable =>
      simp only [AckProtocol.step] at hstep
      split at hstep
      · next op d conn ch generation hpc =>
          -- without a usable channel nothing is scheduled and the delivery stays unacknowledged
          split at hstep
          · next cb hcb =>
              cases hstep
              exact h.readReconnect hpc hcb
          · cases hstep
            exact h.toFlushed (by simp [hpc]) (by simp [hpc])
      · exact absurd hstep (by simp)
  | schedule w ok =>
      simp only [AckProtocol.step] at hstep
      split at hstep
      · next cb hpc =>
          cases ok with
          | true =>
              cases hstep
              exact h.schedule hpc
          | false =>
              cases hstep
              exact h.toFlushed (by simp [hpc]) (by simp [hpc])
      · exact absurd hstep (by simp)
  | uncount w =>
      simp only [AckProtocol.step] at hstep
      split at hstep
      · next hpc =>
          cases hstep
          exact h.uncount hpc
      · exact absurd hstep (by simp)

theorem inv_of_run {s : State n μ} {actions : List (Action n μ)}
    (hrun : Transition.exec step (State.init n μ) actions = some s) : Inv s :=
  Transition.exec_invariant_of_step (fun _ _ _ hs hstep => hs.step hstep) actions _ s Inv.init hrun

/-- No key has two acknowledgements. -/
theorem Inv.once {s : State n μ} (h : Inv s) : (s.acks.map Ack.key).Nodup := by
  rw [List.nodup_iff_count_le_one]
  intro k
  have hk := h.unique k
  have hcount : (s.acks.map Ack.key).count k = s.acks.countP (fun a => a.key = k) := by
    rw [List.count, List.countP_map]
    apply List.countP_congr
    intro a _
    simp [Function.comp]
  have hle : s.acks.countP (fun a => a.key = k) ≤ s.copies k := Nat.le_add_left _ _
  rw [hcount]
  split at hk <;> omega

theorem counted_add_uncounted (v : Worker μ) :
    v.counted + v.uncounted = v.unflushed + v.overcounted := by
  unfold Worker.counted Worker.uncounted Worker.unflushed Worker.overcounted
  cases v.pc <;> rfl

/-- **Every acknowledgement is for an appended payload, on the generation of its delivery, and the only
one; the counter is off by the payloads just taken and just flushed.** -/
theorem ackSafe_of_run {s : State n μ} {actions : List (Action n μ)}
    (hrun : Transition.exec step (State.init n μ) actions = some s) :
    AckSafe s ∧ s.inflight + s.uncounted = s.unflushed + s.overcounted := by
  have h := inv_of_run hrun
  refine ⟨⟨h.ack, h.archived, h.once⟩, ?_⟩
  unfold State.uncounted State.unflushed State.overcounted
  rw [h.counter, ← Finset.sum_add_distrib, ← Finset.sum_add_distrib]
  apply Finset.sum_congr rfl
  intro w _
  exact counted_add_uncounted (s.worker w)

/-- A consumer connects, binds, consumes and gets a payload, which the worker takes. -/
def deliverAndGet : List (Action 1 String) :=
  [.io 0 .connect, .io 0 .bindFirst, .io 0 .writeChannel, .io 0 .writeGeneration,
    .io 0 .writeReconnect, .io 0 (.bindSecond 1), .io 0 .writeChannel, .io 0 .writeGeneration,
    .io 0 .writeReconnect, .deliver 0 (.queue 0) "1710000001 1 c001", .get 0]

/-- The worker goes on to flush it and the callback runs. -/
def deliverAndAck : List (Action 1 String) :=
  deliverAndGet ++
    ([.count 0, .flushNow 0, .append 0 true false, .readConnection 0, .readChannel 0,
      .readGeneration 0, .readReconnect 0 false, .schedule 0 true, .uncount 0, .runCallback 0 0 true] :
      List (Action 1 String))

theorem ackSafe_of_run_deliverAndAck :
    ∃ s, Transition.exec step (State.init 1 String) deliverAndAck = some s ∧
      s.acks = [⟨0, 2, ⟨⟨0, 0⟩, 1⟩, 1⟩] ∧
      AckSafe s ∧ s.inflight + s.uncounted = s.unflushed + s.overcounted := by
  have hacks : (Transition.exec step (State.init 1 String) deliverAndAck).map State.acks =
      some [⟨0, 2, ⟨⟨0, 0⟩, 1⟩, 1⟩] := by
    decide +kernel
  obtain ⟨s, hrun, hs⟩ := Option.map_eq_some_iff.mp hacks
  exact ⟨s, hrun, hs, ackSafe_of_run hrun⟩

/-- Between the `get` and the count a payload is taken that the counter does not count. -/
theorem not_inflight_eq_unflushed_deliverAndGet :
    ¬ ∀ (n : ℕ) (actions : List (Action n String)) (s : State n String),
      Transition.exec step (State.init n String) actions = some s →
        AckSafe s ∧ s.inflight = s.unflushed := by
  intro h
  have hcounts : (Transition.exec step (State.init 1 String) deliverAndGet).map
      (fun s => (s.inflight, s.unflushed)) = some (0, 1) := by
    decide +kernel
  obtain ⟨s, hrun, hs⟩ := Option.map_eq_some_iff.mp hcounts
  have heq := (h 1 deliverAndGet s hrun).2
  have hzero : s.inflight = 0 := congrArg Prod.fst hs
  have hone : s.unflushed = 1 := congrArg Prod.snd hs
  omega

end AckProtocol
