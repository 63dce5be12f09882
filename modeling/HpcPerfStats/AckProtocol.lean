/-
# Deferred acknowledgements across reconnects

Every consumer thread of `listend` has a session and a connection of its own.  It opens a connection,
binds it to the session, declares the queue, binds again, consumes until the connection fails, unbinds
and starts over; `bind` is four writes, the third of which raises the generation.  `on_message` puts a
payload on the queue of an archive worker, with the generation of the session at that time.  The worker
appends the payload to the archive, reads the session and asks the connection to run a callback on the
consumer's thread, which sends the `basic_ack` unless the session has changed.

Here the threads are interleaved at every read and write of what they share:

* `Consumer` is a session with the place of its thread, `IoAction` what that thread does by itself;
* `Worker` is an archive worker with its queue, the payloads it holds back (in any order) and the place
  in `_archive_and_submit_then_ack`;
* `step` is one action of one thread.

Connections come with the number of their session, channels with their connection, and delivery tags
start from one on each channel.  Which worker gets a payload, whether an append, a callback or the
connection fails and when a reconnect is requested are arguments of the actions.
-/
import HpcPerfStats.Transition
import Mathlib.Algebra.BigOperators.Fin
import Mathlib.Logic.Function.Basic

namespace AckProtocol

open scoped Transition

/-! ## Consumers -/

/-- A connection of a session. -/
structure Conn where
  session : ℕ
  serial : ℕ
  deriving DecidableEq

/-- A channel of a connection. -/
structure Channel where
  conn : Conn
  number : ℕ
  deriving DecidableEq

/-- Where the loop of `_amqp_consumer_main` stands between two binds. -/
inductive Stage where
  | start
  | opened (ch : Channel)
  | bound (ch : Channel)
  | consuming (ch : Channel)
  | unbound (conn : Option Conn)
  deriving DecidableEq

/-- The connection whose events the thread processes. -/
def Stage.conn : Stage → Option Conn
  | .start => none
  | .opened ch => some ch.conn
  | .bound ch => some ch.conn
  | .consuming ch => some ch.conn
  | .unbound conn => conn

/-- The channel that is bound at a stage. -/
def Stage.boundChannel : Stage → Option Channel
  | .bound ch => some ch
  | .consuming ch => some ch
  | _ => none

/-- The thread is at a stage, or in the `bind` that leads to one and has written the first, the first
two or the first three of the attributes. -/
inductive Io where
  | at (stage : Stage)
  | writeChannel (next : Stage)
  | writeGeneration (next : Stage)
  | writeReconnect (next : Stage)
  deriving DecidableEq

/-- `_AmqpConsumeSession` and the thread that owns it; `opened` counts its connections. -/
structure Consumer where
  connection : Option Conn
  channel : Option Channel
  generation : ℕ
  reconnectRequested : Bool
  io : Io
  opened : ℕ
  deriving DecidableEq

def Consumer.init : Consumer := ⟨none, none, 0, false, .at .start, 0⟩

inductive IoAction where
  | connect
  | bindFirst
  | bindSecond (number : ℕ)
  | unbind
  | writeChannel
  | writeGeneration
  | writeReconnect
  | clearReconnect
  | close
  deriving DecidableEq

/-- The first write of `bind`, on the way to a stage. -/
def Consumer.bind (c : Consumer) (next : Stage) : Consumer :=
  { c with connection := next.boundChannel.map Channel.conn, io := .writeChannel next }

/-- What the thread of the session `i` does by itself; `none` when it is not there. -/
def ioStep (i : ℕ) (c : Consumer) : IoAction → Option Consumer
  | .connect =>
      match c.io with
      | .at .start =>
          some { c with io := .at (.opened ⟨⟨i, c.opened⟩, 1⟩), opened := c.opened + 1 }
      | _ => none
  | .bindFirst =>
      match c.io with
      | .at (.opened ch) => some (c.bind (.bound ch))
      | _ => none
  | .bindSecond number =>
      match c.io with
      | .at (.bound ch) => some (c.bind (.consuming ⟨ch.conn, number⟩))
      | _ => none
  | .unbind =>
      match c.io with
      | .at stage => some (c.bind (.unbound stage.conn))
      | _ => none
  | .writeChannel =>
      match c.io with
      | .writeChannel next => some { c with channel := next.boundChannel, io := .writeGeneration next }
      | _ => none
  | .writeGeneration =>
      match c.io with
      | .writeGeneration next =>
          some { c with generation := c.generation + 1, io := .writeReconnect next }
      | _ => none
  | .writeReconnect =>
      match c.io with
      | .writeReconnect next => some { c with reconnectRequested := false, io := .at next }
      | _ => none
  | .clearReconnect =>
      match c.io with
      | .at (.consuming _) => some { c with reconnectRequested := false }
      | _ => none
  | .close =>
      match c.io with
      | .at (.unbound _) => some { c with reconnectRequested := false, io := .at .start }
      | _ => none

/-! ## Payloads and workers -/

variable {μ : Type*} {n : ℕ}

/-- `_ArchiveWorkItem`, with the channel on which the payload was delivered. -/
structure Work (μ : Type*) where
  deliveryTag : ℕ
  message : μ
  session : ℕ
  ackGeneration : ℕ
  channel : Channel
  deriving DecidableEq

/-- What the broker knows a delivery by. -/
abbrev Key : Type := Channel × ℕ

def Work.key (d : Work μ) : Key := (d.channel, d.deliveryTag)

inductive Op where
  | ack
  | nack
  deriving DecidableEq

/-- A deferred callback: the payload it is for and the snapshot of the session. -/
structure Callback (μ : Type*) where
  op : Op
  work : Work μ
  conn : Conn
  channel : Channel
  generation : ℕ
  deriving DecidableEq

/-- Where a worker stands. -/
inductive Pc (μ : Type*) where
  | idle
  | taken (d : Work μ)
  | counted (d : Work μ)
  | appending (d : Work μ)
  | readConnection (op : Op) (d : Work μ)
  | readChannel (op : Op) (d : Work μ) (conn : Option Conn)
  | readGeneration (op : Op) (d : Work μ) (conn : Option Conn) (ch : Option Channel)
  | readReconnect (op : Op) (d : Work μ) (conn : Option Conn) (ch : Option Channel) (generation : ℕ)
  | schedule (cb : Callback μ)
  | flushed
  deriving DecidableEq

structure Worker (μ : Type*) where
  queue : List (Work μ)
  held : List (Work μ)
  pc : Pc μ

/-- An acknowledgement as the broker sees it, with the generation of the session at that time. -/
structure Ack where
  session : ℕ
  generation : ℕ
  channel : Channel
  deliveryTag : ℕ
  deriving DecidableEq

/-- The acknowledgement that a payload should get. -/
def Work.toAck (d : Work μ) : Ack := ⟨d.session, d.ackGeneration, d.channel, d.deliveryTag⟩

def Ack.key (a : Ack) : Key := (a.channel, a.deliveryTag)

/-- The state: the consumers, the workers, the callbacks that wait on the connections and
`_archive_inflight`, and the history of deliveries, appends and acknowledgements. -/
structure State (n : ℕ) (μ : Type*) where
  consumer : ℕ → Consumer
  worker : Fin n → Worker μ
  callbacks : List (Callback μ)
  inflight : ℕ
  nextTag : Channel → ℕ
  deliveries : List (Work μ)
  archived : List (Work μ)
  acks : List Ack

def State.init (n : ℕ) (μ : Type*) : State n μ where
  consumer := fun _ => Consumer.init
  worker := fun _ => ⟨[], [], .idle⟩
  callbacks := []
  inflight := 0
  nextTag := fun _ => 1
  deliveries := []
  archived := []
  acks := []

/-- What `on_message` does with a payload: the queue of a worker; the synchronous path, with whether the
append and the `basic_ack` work; or the pause for the database. -/
inductive Route (n : ℕ) where
  | queue (w : Fin n)
  | sync (ok acked : Bool)
  | pause
  deriving DecidableEq

inductive Action (n : ℕ) (μ : Type*) where
  | io (i : ℕ) (a : IoAction)
  | requestReconnect (i : ℕ)
  | deliver (i : ℕ) (route : Route n) (message : μ)
  | runCallback (i k : ℕ) (ok : Bool)
  | get (w : Fin n)
  | count (w : Fin n)
  | hold (w : Fin n)
  | flushNow (w : Fin n)
  | flushHeld (w : Fin n) (k : ℕ)
  | append (w : Fin n) (ok dead : Bool)
  | readConnection (w : Fin n)
  | readChannel (w : Fin n)
  | readGeneration (w : Fin n)
  | readReconnect (w : Fin n) (unusable : Bool)
  | schedule (w : Fin n) (ok : Bool)
  | uncount (w : Fin n)

def State.setConsumer (s : State n μ) (i : ℕ) (c : Consumer) : State n μ :=
  { s with consumer := Function.update s.consumer i c }

def State.setWorker (s : State n μ) (w : Fin n) (v : Worker μ) : State n μ :=
  { s with worker := Function.update s.worker w v }

def State.setPc (s : State n μ) (w : Fin n) (pc : Pc μ) : State n μ :=
  s.setWorker w { s.worker w with pc := pc }

/-- `_consume_amqp_callback_stale`. -/
def State.callbackStale (s : State n μ) (cb : Callback μ) : Bool :=
  let c := s.consumer cb.work.session
  c.generation != cb.generation || c.reconnectRequested || c.connection != some cb.conn

/-- The checks of `_consume_amqp_for_threadsafe_op` on what it has read. -/
def snapshot (op : Op) (d : Work μ) (conn : Option Conn) (ch : Option Channel) (generation : ℕ)
    (reconnect unusable : Bool) : Option (Callback μ) :=
  if d.ackGeneration ≠ 0 ∧ generation ≠ d.ackGeneration then none
  else
    match conn, ch with
    | some conn, some ch =>
        if (reconnect || unusable) = true then none else some ⟨op, d, conn, ch, generation⟩
    | _, _ => none

/-- The payload that a delivery on a channel puts in a queue. -/
def State.newWork (s : State n μ) (i : ℕ) (ch : Channel) (message : μ) : Work μ :=
  ⟨s.nextTag ch, message, i, (s.consumer i).generation, ch⟩

/-- A delivery takes the next tag of its channel. -/
def State.recordDelivery (s : State n μ) (d : Work μ) : State n μ :=
  { s with
    nextTag := Function.update s.nextTag d.channel (d.deliveryTag + 1)
    deliveries := s.deliveries ++ [d] }

/-- `on_message` for a payload. -/
def State.onMessage (s : State n μ) (d : Work μ) : Route n → State n μ
  | .queue w =>
      (s.recordDelivery d).setWorker w { s.worker w with queue := (s.worker w).queue ++ [d] }
  | .sync true true =>
      { s.recordDelivery d with archived := s.archived ++ [d], acks := s.acks ++ [d.toAck] }
  | .sync true false => { s.recordDelivery d with archived := s.archived ++ [d] }
  | .sync false _ => s.recordDelivery d
  | .pause => s.recordDelivery d

/-- A callback on the thread of its connection; `ok` says whether the channel takes the message. -/
def State.perform (s : State n μ) (cb : Callback μ) (ok : Bool) : State n μ :=
  if s.callbackStale cb = true ∨ ok = false ∨ cb.op = .nack then s
  else
    { s with acks := s.acks ++
        [⟨cb.work.session, (s.consumer cb.work.session).generation, cb.channel,
          cb.work.deliveryTag⟩] }

/-- One action of one thread; `none` when the thread is not there.  A request to reconnect is an action
of its own, whoever makes it. -/
def step (s : State n μ) : Action n μ → Option (State n μ)
  | .io i a => (ioStep i (s.consumer i) a).map (s.setConsumer i)
  | .requestReconnect i =>
      some (s.setConsumer i { s.consumer i with reconnectRequested := true })
  | .deliver i route message =>
      match (s.consumer i).io with
      | .at (.consuming ch) => some (s.onMessage (s.newWork i ch message) route)
      | _ => none
  | .runCallback i k ok =>
      match (s.consumer i).io, s.callbacks[k]? with
      | .at stage, some cb =>
          if stage.conn = some cb.conn then
            some ({ s with callbacks := s.callbacks.eraseIdx k }.perform cb ok)
          else none
      | _, _ => none
  | .get w =>
      match (s.worker w).pc, (s.worker w).queue with
      | .idle, d :: queue => some (s.setWorker w ⟨queue, (s.worker w).held, .taken d⟩)
      | _, _ => none
  | .count w =>
      match (s.worker w).pc with
      | .taken d => some { s.setPc w (.counted d) with inflight := s.inflight + 1 }
      | _ => none
  | .hold w =>
      match (s.worker w).pc with
      | .counted d =>
          some (s.setWorker w ⟨(s.worker w).queue, (s.worker w).held ++ [d], .idle⟩)
      | _ => none
  | .flushNow w =>
      match (s.worker w).pc with
      | .counted d => some (s.setPc w (.appending d))
      | _ => none
  | .flushHeld w k =>
      match (s.worker w).pc, (s.worker w).held[k]? with
      | .idle, some d =>
          some (s.setWorker w ⟨(s.worker w).queue, (s.worker w).held.eraseIdx k, .appending d⟩)
      | _, _ => none
  | .append w ok dead =>
      match (s.worker w).pc with
      | .appending d =>
          if ok = true then
            some { s.setPc w (.readConnection .ack d) with archived := s.archived ++ [d] }
          else if dead = true then some (s.setPc w .flushed)
          else some (s.setPc w (.readConnection .nack d))
      | _ => none
  | .readConnection w =>
      match (s.worker w).pc with
      | .readConnection op d =>
          some (s.setPc w (.readChannel op d (s.consumer d.session).connection))
      | _ => none
  | .readChannel w =>
      match (s.worker w).pc with
      | .readChannel op d conn =>
          some (s.setPc w (.readGeneration op d conn (s.consumer d.session).channel))
      | _ => none
  | .readGeneration w =>
      match (s.worker w).pc with
      | .readGeneration op d conn ch =>
          some (s.setPc w (.readReconnect op d conn ch (s.consumer d.session).generation))
      | _ => none
  | .readReconnect w unusable =>
      match (s.worker w).pc with
      | .readReconnect op d conn ch generation =>
          match snapshot op d conn ch generation
              (s.consumer d.session).reconnectRequested unusable with
          | some cb => some (s.setPc w (.schedule cb))
          | none => some (s.setPc w .flushed)
      | _ => none
  | .schedule w ok =>
      match (s.worker w).pc with
      | .schedule cb =>
          if ok = true then
            some { s.setPc w .flushed with callbacks := s.callbacks ++ [cb] }
          else some (s.setPc w .flushed)
      | _ => none
  | .uncount w =>
      match (s.worker w).pc with
      | .flushed => some { s.setPc w .idle with inflight := s.inflight - 1 }
      | _ => none

/-! ## What should hold -/

/-- The payloads a worker has taken from its queue and not flushed. -/
def Worker.unflushed (v : Worker μ) : ℕ :=
  v.held.length +
    match v.pc with
    | .idle => 0
    | .flushed => 0
    | _ => 1

/-- The payload a worker has just taken and not counted. -/
def Worker.uncounted (v : Worker μ) : ℕ :=
  match v.pc with
  | .taken _ => 1
  | _ => 0

/-- The payload a worker has just flushed and still counts. -/
def Worker.overcounted (v : Worker μ) : ℕ :=
  match v.pc with
  | .flushed => 1
  | _ => 0

/-- The payloads taken from the queues and not flushed. -/
def State.unflushed (s : State n μ) : ℕ := ∑ w, (s.worker w).unflushed

def State.uncounted (s : State n μ) : ℕ := ∑ w, (s.worker w).uncounted

def State.overcounted (s : State n μ) : ℕ := ∑ w, (s.worker w).overcounted

/-- Every acknowledgement is for a payload that was appended, on the channel and the generation on which
it was delivered, and no delivery has two. -/
structure AckSafe (s : State n μ) : Prop where
  archived : ∀ a ∈ s.acks, ∃ d ∈ s.archived, d.toAck = a
  delivered : ∀ d ∈ s.archived, d ∈ s.deliveries
  once : (s.acks.map Ack.key).Nodup

end AckProtocol
