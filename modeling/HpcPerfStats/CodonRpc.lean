/-
# Calls to a Codon worker

`_popen_rpc` sends one request to a worker process and reads one response, over two pipes that are
not buffered: a read returns what the pipe holds, at most as many bytes as it asks for.  A response
that is read in part is given up ("codon worker EOF") but its rest stays in the pipe, and the
worker is used again as long as it lives.

* `Worker.answer` is the worker's response to a frame
* `Channel` is one worker with the bytes in its pipes, `step` one step of a caller or of the worker
* `Own` says that a call that returns has got the worker's response to its own request
* `Sound` says that a read of a living worker's response returns all the bytes it asks for

The invariant `Inv` follows the response to the request that is being made: a part that was read,
a part in the pipe, a part that the worker has still to write.  `calls_own` is the result for every
run, and `not_calls_own` the run of three calls in which the third returns the rows of the second.
-/
import HpcPerfStats.CodonWire
import HpcPerfStats.Transition

namespace CodonRpc

open Transition JsonText CodonFeed CodonWire

variable {F : Type}

/-! ## The worker -/

/-- What a worker process runs: its kernels, with the text of the exception of one that fails, and
the texts of the exceptions of the codec. -/
structure Worker (F : Type) where
  fl : FloatText F
  fb : FloatBits F
  fingerprint : List String → Except String (Fingerprint F)
  parse : List String → Except String (List (StatsRecord F) × List Proc)
  excText : WireError → String

/-- `codon_worker_fingerprint`, `codon_worker_parse`. -/
def Worker.compute (w : Worker F) (lines : List String) : Kind → Except String (Outcome F)
  | .fp => (w.fingerprint lines).map .fp
  | .parse => (w.parse lines).map fun rows => .parse rows.1 rows.2

/-- The response of `main` to a frame; an error here ends the process. -/
def Worker.answer (w : Worker F) (request : Bytes) : Except WireError Bytes :=
  match decodeRequest request with
  | .error e => encodeResponseErr (w.excText e)
  | .ok (kind, lines) =>
      match w.compute lines kind with
      | .error message => encodeResponseErr message
      | .ok outcome =>
          match encodeResponseOk w.fl w.fb outcome with
          | .error e => encodeResponseErr (w.excText e)
          | .ok frame => .ok frame

/-- The length in a header. -/
def payloadLength (hdr : Bytes) : ℕ :=
  unpackBE ((hdr.drop 2).take 4)

/-- `_recv_frame`: the first frame of the input, when it is there as a whole. -/
def recvFrame (input : Bytes) : Option (Bytes × Bytes) :=
  if input.length < headerSize then none
  else if input.length < headerSize + payloadLength input then none
  else some (input.take (headerSize + payloadLength input),
    input.drop (headerSize + payloadLength input))

/-! ## The channel -/

/-- How a call ends without a response. -/
inductive RpcError where
  | wire (e : WireError)
  | codonWorkerEof
  | brokenPipe

/-- A call that has ended. -/
structure Entry (F : Type) where
  kind : Kind
  lines : List String
  result : Except RpcError (Reply F)

/-- Where the call is. -/
inductive Pc where
  | idle
  | checkedOut (kind : Kind) (lines : List String)
  | sent (kind : Kind) (lines : List String)
  | gotHeader (kind : Kind) (lines : List String) (hdr : Bytes)

/-- A worker process and its pipes. -/
structure Channel (F : Type) where
  /-- `proc.poll()` is `None`. -/
  alive : Bool
  /-- Sent to the worker and not read by it. -/
  input : Bytes
  /-- The rest of the response that the worker is writing. -/
  output : Bytes
  /-- Written by the worker and not read by a call. -/
  pipe : Bytes
  pc : Pc
  log : List (Entry F)

/-- `_spawn_codon_worker`. -/
def Channel.spawn (pc : Pc) (log : List (Entry F)) : Channel F :=
  ⟨true, [], [], [], pc, log⟩

def Channel.init : Channel F :=
  .spawn .idle []

/-- The call ends, and the worker is free again. -/
def Channel.finish (s : Channel F) (kind : Kind) (lines : List String)
    (result : Except RpcError (Reply F)) : Channel F :=
  { s with pc := .idle, log := s.log ++ [⟨kind, lines, result⟩] }

/-- The process ends; what it has written can still be read. -/
def Channel.kill (s : Channel F) : Channel F :=
  { s with alive := false, input := [], output := [] }

/-- A read of `want` bytes may return `n` bytes: some that are there, or none at the end of the
pipe.  Nothing is read when nothing is wanted. -/
def Channel.MayReturn (s : Channel F) (want n : ℕ) : Prop :=
  if want = 0 then n = 0
  else 0 < n ∧ n ≤ want ∧ n ≤ s.pipe.length ∨ n = 0 ∧ s.pipe = [] ∧ s.alive = false

instance (s : Channel F) (want n : ℕ) : Decidable (s.MayReturn want n) :=
  inferInstanceAs (Decidable (if want = 0 then n = 0
    else 0 < n ∧ n ≤ want ∧ n ≤ s.pipe.length ∨ n = 0 ∧ s.pipe = [] ∧ s.alive = false))

inductive Action where
  /-- A call checks the worker out, and spawns a new process when it has ended. -/
  | call (kind : Kind) (lines : List String)
  | send
  | readHeader (n : ℕ)
  | readBody (n : ℕ)
  /-- The worker reads a frame and computes the response. -/
  | serve
  /-- The worker writes `n` bytes. -/
  | emit (n : ℕ)
  | die

/-- One step of `_popen_rpc` or of `main`. -/
def step (w : Worker F) (s : Channel F) : Action → Option (Channel F)
  | .call kind lines =>
      match s.pc with
      | .idle =>
          some (if s.alive then { s with pc := .checkedOut kind lines }
            else .spawn (.checkedOut kind lines) s.log)
      | _ => none
  | .send =>
      match s.pc with
      | .checkedOut kind lines =>
          match encodeRequest kind lines with
          | .error e => some (s.finish kind lines (.error (.wire e)))
          | .ok frame =>
              if s.alive then some { s with input := s.input ++ frame, pc := .sent kind lines }
              else some (s.finish kind lines (.error .brokenPipe))
      | _ => none
  | .readHeader n =>
      match s.pc with
      | .sent kind lines =>
          if s.MayReturn headerSize n then
            if n < headerSize then
              some ({ s with pipe := s.pipe.drop n }.finish kind lines (.error .codonWorkerEof))
            else
              some { s with pipe := s.pipe.drop n, pc := .gotHeader kind lines (s.pipe.take n) }
          else none
      | _ => none
  | .readBody n =>
      match s.pc with
      | .gotHeader kind lines hdr =>
          if s.MayReturn (payloadLength hdr) n then
            if n < payloadLength hdr then
              some ({ s with pipe := s.pipe.drop n }.finish kind lines (.error .codonWorkerEof))
            else
              some ({ s with pipe := s.pipe.drop n }.finish kind lines
                ((decodeResponse w.fl w.fb kind (hdr ++ s.pipe.take n)).mapError .wire))
          else none
      | _ => none
  | .serve =>
      if s.alive ∧ s.output = [] then
        match recvFrame s.input with
        | none => none
        | some (request, rest) =>
            match w.answer request with
            | .ok frame => some { s with input := rest, output := frame }
            | .error _ => some s.kill
      else none
  | .emit n =>
      if s.alive ∧ 0 < n ∧ n ≤ s.output.length then
        some { s with output := s.output.drop n, pipe := s.pipe ++ s.output.take n }
      else none
  | .die => if s.alive then some s.kill else none

/-- A call that returns has got the worker's response to its own request. -/
def Own (w : Worker F) (e : Entry F) : Prop :=
  ∀ reply, e.result = .ok reply → ∃ request frame, encodeRequest e.kind e.lines = .ok request
    ∧ w.answer request = .ok frame ∧ decodeResponse w.fl w.fb e.kind frame = .ok reply

/-- The bytes that the next read wants. -/
def Channel.wanted (s : Channel F) : Action → Option (ℕ × ℕ)
  | .readHeader n => some (headerSize, n)
  | .readBody n =>
      match s.pc with
      | .gotHeader _ _ hdr => some (payloadLength hdr, n)
      | _ => none
  | _ => none

def sound (s : Channel F) (a : Action) : Bool :=
  match s.wanted a with
  | some (want, n) => n == want || !s.alive
  | none => true

/-- **The condition.**  A read of the response of a living worker returns all it asks for. -/
def Sound (s : Channel F) (a : Action) : Prop :=
  sound s a = true

instance (s : Channel F) (a : Action) : Decidable (Sound s a) :=
  inferInstanceAs (Decidable (_ = true))

/-! ## Frames as a worker reads and writes them -/

theorem length_of_packFrame {tag : UInt8} {payload frame : Bytes}
    (h : packFrame tag payload = .ok frame) :
    frame.length = headerSize + payload.length ∧ payloadLength (frame.take headerSize) = payload.length := by
  have hlen := length_lt_of_packFrame h
  unfold packFrame at h
  rw [if_pos hlen] at h
  rw [← Except.ok.inj h]
  constructor
  · rw [List.length_append, List.length_cons, List.length_cons, length_packBE]
    rfl
  · show unpackBE (packBE 4 payload.length) = payload.length
    rw [unpackBE_packBE]
    exact Nat.mod_eq_of_lt hlen

/-- The length in a header is read from the header alone. -/
theorem payloadLength_take (bs : Bytes) : payloadLength (bs.take headerSize) = payloadLength bs := by
  unfold payloadLength headerSize
  rw [List.drop_take, List.take_take]
  rfl

/-- The worker reads a request as it was sent. -/
theorem recvFrame_encodeRequest {kind : Kind} {lines : List String} {request : Bytes}
    (h : encodeRequest kind lines = .ok request) : recvFrame request = some (request, []) := by
  obtain ⟨hlen, hpayload⟩ := length_of_packFrame h
  rw [payloadLength_take] at hpayload
  unfold recvFrame
  rw [hpayload, ← hlen, if_neg (by omega), if_neg (Nat.lt_irrefl _), List.take_length, List.drop_length]

/-- A response is a frame. -/
theorem length_of_answer {w : Worker F} {request frame : Bytes} (h : w.answer request = .ok frame) :
    frame.length = headerSize + payloadLength (frame.take headerSize) := by
  obtain ⟨tag, payload, hframe⟩ : ∃ tag payload, packFrame tag payload = .ok frame := by
    unfold Worker.answer at h
    split at h
    · exact ⟨_, _, h⟩
    · split at h
      · exact ⟨_, _, h⟩
      · split at h
        · exact ⟨_, _, h⟩
        · rename_i hok
          rw [← Except.ok.inj h]
          exact ⟨_, frame_of_encodeResponseOk w.fl w.fb hok⟩
  obtain ⟨hlen, hpayload⟩ := length_of_packFrame hframe
  rw [hpayload, hlen]

/-! ## The response that is under way -/

section Steps

variable (w : Worker F)

/-- Nothing is under way in a living worker. -/
def Quiet (s : Channel F) : Prop :=
  s.alive = true → s.input = [] ∧ s.output = [] ∧ s.pipe = []

/-- The request is sent and not read; a worker that has died leaves nothing. -/
def Waiting (s : Channel F) (request : Bytes) : Prop :=
  s.pipe = [] ∧ (s.alive = true → s.input = request ∧ s.output = [])

/-- The response to the request is under way: the call has read the part `read` of it. -/
def Answering (s : Channel F) (request read : Bytes) : Prop :=
  ∃ frame, w.answer request = .ok frame ∧ read ++ s.pipe ++ s.output <+: frame
    ∧ (s.alive = true → s.input = [] ∧ read ++ s.pipe ++ s.output = frame)

/-- What is in the pipes, by the place of the call. -/
def UnderWay (s : Channel F) : Prop :=
  match s.pc with
  | .idle => Quiet s
  | .checkedOut _ _ => Quiet s
  | .sent kind lines => ∃ request, encodeRequest kind lines = .ok request
      ∧ (Waiting s request ∨ Answering w s request [])
  | .gotHeader kind lines hdr => ∃ request, encodeRequest kind lines = .ok request
      ∧ hdr.length = headerSize ∧ Answering w s request hdr

/-- **The invariant.** -/
structure Inv (s : Channel F) : Prop where
  own : ∀ e ∈ s.log, Own w e
  underWay : UnderWay w s

theorem inv_init : Inv w Channel.init := by
  constructor
  · intro e he
    cases he
  · intro _
    exact ⟨rfl, rfl, rfl⟩

variable {w}

/-- A call that ends with an error. -/
theorem Inv.finish_error {s s' : Channel F} (h : Inv w s) {kind : Kind} {lines : List String}
    {e : RpcError} (hlog : s'.log = s.log) (hquiet : Quiet s') :
    Inv w (s'.finish kind lines (.error e)) := by
  constructor
  · intro entry hentry
    rw [Channel.finish, hlog] at hentry
    rcases List.mem_append.mp hentry with hmem | hmem
    · exact h.own entry hmem
    · rw [List.mem_singleton.mp hmem]
      intro reply hreply
      cases hreply
  · exact hquiet

/-- A worker that has died is quiet. -/
theorem quiet_of_dead {s : Channel F} (h : s.alive = false) : Quiet s := by
  intro halive
  rw [h] at halive
  cases halive

theorem inv_call {s s' : Channel F} {kind : Kind} {lines : List String} (h : Inv w s)
    (hstep : step w s (.call kind lines) = some s') : Inv w s' := by
  obtain ⟨alive, input, output, pipe, pc, log⟩ := s
  cases pc with
  | checkedOut kind' lines' => cases hstep
  | sent kind' lines' => cases hstep
  | gotHeader kind' lines' hdr => cases hstep
  | idle =>
      rw [← Option.some.inj hstep]
      cases alive with
      | true => exact ⟨h.own, h.underWay⟩
      | false => exact ⟨h.own, fun _ => ⟨rfl, rfl, rfl⟩⟩

theorem inv_send {s s' : Channel F} (h : Inv w s) (hstep : step w s .send = some s') : Inv w s' := by
  obtain ⟨alive, input, output, pipe, pc, log⟩ := s
  cases pc with
  | idle => cases hstep
  | sent kind lines => cases hstep
  | gotHeader kind lines hdr => cases hstep
  | checkedOut kind lines =>
      have hquiet : Quiet _ := h.underWay
      unfold step at hstep
      dsimp only at hstep
      cases hrequest : encodeRequest kind lines with
      | error e =>
          rw [hrequest] at hstep
          rw [← Option.some.inj hstep]
          exact h.finish_error rfl hquiet
      | ok request =>
          rw [hrequest] at hstep
          dsimp only at hstep
          split_ifs at hstep with halive
          · rw [← Option.some.inj hstep]
            obtain ⟨hinput, houtput, hpipe⟩ := hquiet halive
            refine ⟨h.own, request, hrequest, Or.inl ⟨hpipe, fun _ => ⟨?_, houtput⟩⟩⟩
            show input ++ request = request
            rw [show input = [] from hinput, List.nil_append]
          · rw [← Option.some.inj hstep]
            exact h.finish_error rfl hquiet

/-- The worker that is killed takes nothing with it that was read or can be read. -/
theorem Inv.kill {s : Channel F} (h : Inv w s) : Inv w s.kill := by
  obtain ⟨alive, input, output, pipe, pc, log⟩ := s
  refine ⟨h.own, ?_⟩
  have hunder := h.underWay
  have hcut : ∀ {request read : Bytes}, Answering w ⟨alive, input, output, pipe, pc, log⟩ request read →
      Answering w (Channel.kill ⟨alive, input, output, pipe, pc, log⟩) request read := by
    rintro request read ⟨frame, hframe, hprefix, -⟩
    refine ⟨frame, hframe, ?_, fun halive => by cases halive⟩
    show read ++ pipe ++ [] <+: frame
    rw [List.append_nil]
    exact (List.prefix_append _ _).trans hprefix
  cases pc with
  | idle => exact quiet_of_dead rfl
  | checkedOut kind lines => exact quiet_of_dead rfl
  | sent kind lines =>
      obtain ⟨request, hrequest, hwait | hanswer⟩ := hunder
      · exact ⟨request, hrequest, Or.inl ⟨hwait.1, fun halive => by cases halive⟩⟩
      · exact ⟨request, hrequest, Or.inr (hcut hanswer)⟩
  | gotHeader kind lines hdr =>
      obtain ⟨request, hrequest, hlen, hanswer⟩ := hunder
      exact ⟨request, hrequest, hlen, hcut hanswer⟩

theorem inv_die {s s' : Channel F} (h : Inv w s) (hstep : step w s .die = some s') : Inv w s' := by
  unfold step at hstep
  dsimp only at hstep
  split_ifs at hstep
  rw [← Option.some.inj hstep]
  exact h.kill

/-- A living worker that serves has the request of the call in its input. -/
theorem Inv.input_of_serve {s : Channel F} (h : Inv w s) (halive : s.alive = true)
    {request rest : Bytes} (hrecv : recvFrame s.input = some (request, rest)) :
    ∃ kind lines, s.pc = .sent kind lines ∧ encodeRequest kind lines = .ok request
      ∧ rest = [] ∧ s.pipe = [] := by
  obtain ⟨alive, input, output, pipe, pc, log⟩ := s
  have hunder := h.underWay
  have hempty : input ≠ [] := by
    rintro rfl
    cases hrecv
  cases pc with
  | idle => exact absurd (hunder halive).1 hempty
  | checkedOut kind lines => exact absurd (hunder halive).1 hempty
  | gotHeader kind lines hdr =>
      obtain ⟨sent, hsent, hlen, frame, hframe, hprefix, hin⟩ := hunder
      exact absurd (hin halive).1 hempty
  | sent kind lines =>
      obtain ⟨sent, hsent, hwait | ⟨frame, hframe, hprefix, hin⟩⟩ := hunder
      · have hinput : input = sent := (hwait.2 halive).1
        have hrecv' : recvFrame input = some (request, rest) := hrecv
        rw [hinput, recvFrame_encodeRequest hsent] at hrecv'
        obtain ⟨rfl, rfl⟩ := Prod.mk.inj (Option.some.inj hrecv')
        exact ⟨kind, lines, rfl, hsent, rfl, hwait.1⟩
      · exact absurd (hin halive).1 hempty

theorem inv_serve {s s' : Channel F} (h : Inv w s) (hstep : step w s .serve = some s') : Inv w s' := by
  unfold step at hstep
  dsimp only at hstep
  split_ifs at hstep with hready
  cases hrecv : recvFrame s.input with
  | none => rw [hrecv] at hstep; cases hstep
  | some p =>
      obtain ⟨request, rest⟩ := p
      rw [hrecv] at hstep
      dsimp only at hstep
      cases hanswer : w.answer request with
      | error e =>
          rw [hanswer] at hstep
          rw [← Option.some.inj hstep]
          exact h.kill
      | ok frame =>
          rw [hanswer] at hstep
          rw [← Option.some.inj hstep]
          obtain ⟨kind, lines, hpc, hrequest, hrest, hpipe⟩ := h.input_of_serve hready.1 hrecv
          refine ⟨h.own, ?_⟩
          unfold UnderWay
          dsimp only
          rw [hpc]
          refine ⟨request, hrequest, Or.inr ⟨frame, hanswer, ?_, fun _ => ⟨hrest, ?_⟩⟩⟩
          · show [] ++ s.pipe ++ frame <+: frame
            rw [hpipe]
            exact List.prefix_rfl
          · show [] ++ s.pipe ++ frame = frame
            rw [hpipe]
            rfl

theorem inv_emit {s s' : Channel F} {n : ℕ} (h : Inv w s) (hstep : step w s (.emit n) = some s') :
    Inv w s' := by
  obtain ⟨alive, input, output, pipe, pc, log⟩ := s
  unfold step at hstep
  dsimp only at hstep
  split_ifs at hstep with hready
  obtain ⟨halive, hpos, hn⟩ := hready
  rw [← Option.some.inj hstep]
  have hunder := h.underWay
  have houtput : output ≠ [] := by
    rintro rfl
    rw [List.length_nil] at hn
    omega
  have hmove : ∀ read : Bytes, read ++ (pipe ++ output.take n) ++ output.drop n = read ++ pipe ++ output := by
    intro read
    rw [← List.append_assoc, List.append_assoc, List.take_append_drop]
  have hmoved : ∀ {request read : Bytes}, Answering w ⟨alive, input, output, pipe, pc, log⟩ request read →
      Answering w ⟨alive, input, output.drop n, pipe ++ output.take n, pc, log⟩ request read := by
    rintro request read ⟨frame, hframe, hprefix, hin⟩
    refine ⟨frame, hframe, ?_, fun h => ⟨(hin h).1, ?_⟩⟩
    · show read ++ (pipe ++ output.take n) ++ output.drop n <+: frame
      rw [hmove]
      exact hprefix
    · show read ++ (pipe ++ output.take n) ++ output.drop n = frame
      rw [hmove]
      exact (hin h).2
  refine ⟨h.own, ?_⟩
  cases pc with
  | idle => exact absurd (hunder halive).2.1 houtput
  | checkedOut kind lines => exact absurd (hunder halive).2.1 houtput
  | sent kind lines =>
      obtain ⟨request, hrequest, hwait | hanswer⟩ := hunder
      · exact absurd (hwait.2 halive).2 houtput
      · exact ⟨request, hrequest, Or.inr (hmoved hanswer)⟩
  | gotHeader kind lines hdr =>
      obtain ⟨request, hrequest, hlen, hanswer⟩ := hunder
      exact ⟨request, hrequest, hlen, hmoved hanswer⟩

/-- A read that returns less than it wants finds a dead worker. -/
theorem dead_of_short {s : Channel F} {a : Action} {want n : ℕ} (hsound : Sound s a)
    (hwanted : s.wanted a = some (want, n)) (hshort : n < want) : s.alive = false := by
  unfold Sound sound at hsound
  rw [hwanted] at hsound
  dsimp only at hsound
  rw [Bool.or_eq_true, beq_iff_eq, Bool.not_eq_true'] at hsound
  rcases hsound with heq | hdead
  · omega
  · exact hdead

/-- A call that gives up leaves its bytes in the pipe of a dead worker. -/
theorem Inv.shortRead {s : Channel F} {a : Action} {kind : Kind} {lines : List String} {want n : ℕ}
    (h : Inv w s) (hsound : Sound s a) (hwanted : s.wanted a = some (want, n)) (hshort : n < want) :
    Inv w ({ s with pipe := s.pipe.drop n }.finish kind lines (.error .codonWorkerEof)) := by
  have hdead : s.alive = false := dead_of_short hsound hwanted hshort
  exact h.finish_error rfl (quiet_of_dead hdead)

theorem Channel.MayReturn.length_le {s : Channel F} {want n : ℕ} (h : s.MayReturn want n) :
    n ≤ want ∧ n ≤ s.pipe.length := by
  unfold MayReturn at h
  split_ifs at h with hwant
  · omega
  · rcases h with h | h
    · exact h.2
    · omega

theorem inv_readHeader {s s' : Channel F} {n : ℕ} (h : Inv w s) (hsound : Sound s (.readHeader n))
    (hstep : step w s (.readHeader n) = some s') : Inv w s' := by
  obtain ⟨alive, input, output, pipe, pc, log⟩ := s
  cases pc with
  | idle => cases hstep
  | checkedOut kind lines => cases hstep
  | gotHeader kind lines hdr => cases hstep
  | sent kind lines =>
      unfold step at hstep
      dsimp only at hstep
      split_ifs at hstep with hmay hshort
      · rw [← Option.some.inj hstep]
        exact h.shortRead hsound rfl hshort
      · rw [← Option.some.inj hstep]
        obtain ⟨hle, hpipe⟩ := hmay.length_le
        have hpipe : n ≤ pipe.length := hpipe
        refine ⟨h.own, ?_⟩
        obtain ⟨request, hrequest, hwait | ⟨frame, hframe, hprefix, hin⟩⟩ := h.underWay
        · -- nothing is there to read
          have hnone : pipe.length = 0 := List.length_eq_zero_iff.mpr hwait.1
          have hsize : headerSize = 6 := rfl
          omega
        · refine ⟨request, hrequest, ?_, frame, hframe, ?_, fun halive => ⟨(hin halive).1, ?_⟩⟩
          · rw [List.length_take]
            omega
          · show pipe.take n ++ pipe.drop n ++ output <+: frame
            rw [List.take_append_drop]
            exact hprefix
          · show pipe.take n ++ pipe.drop n ++ output = frame
            rw [List.take_append_drop]
            exact (hin halive).2

/-- The bytes behind a header are those of its response. -/
theorem pipe_of_answering {s : Channel F} {request hdr : Bytes} {n : ℕ}
    (h : Answering w s request hdr) (hlen : hdr.length = headerSize) (hn : n = payloadLength hdr)
    (hpipe : n ≤ s.pipe.length) : w.answer request = .ok (hdr ++ s.pipe.take n) ∧ s.pipe.drop n = []
      ∧ s.output = [] := by
  obtain ⟨frame, hframe, ⟨rest, hrest⟩, -⟩ := h
  have hsize := length_of_answer hframe
  have hheader : frame.take headerSize = hdr := by
    rw [← hrest, List.append_assoc, List.append_assoc, List.take_left' hlen]
  -- the frame holds no more than the header and the bytes it announces
  have hcount := congrArg List.length hrest
  rw [hheader] at hsize
  simp only [List.length_append] at hcount
  have houtput : s.output = [] := List.length_eq_zero_iff.mp (by omega)
  have hnil : rest = [] := List.length_eq_zero_iff.mp (by omega)
  have htake : s.pipe.take n = s.pipe := List.take_of_length_le (by omega)
  refine ⟨?_, List.drop_of_length_le (by omega), houtput⟩
  rw [houtput, hnil, List.append_nil, List.append_nil] at hrest
  rw [htake, hrest, hframe]

theorem inv_readBody {s s' : Channel F} {n : ℕ} (h : Inv w s) (hsound : Sound s (.readBody n))
    (hstep : step w s (.readBody n) = some s') : Inv w s' := by
  obtain ⟨alive, input, output, pipe, pc, log⟩ := s
  cases pc with
  | idle => cases hstep
  | checkedOut kind lines => cases hstep
  | sent kind lines => cases hstep
  | gotHeader kind lines hdr =>
      unfold step at hstep
      dsimp only at hstep
      split_ifs at hstep with hmay hshort
      · rw [← Option.some.inj hstep]
        exact h.shortRead hsound rfl hshort
      · rw [← Option.some.inj hstep]
        obtain ⟨hle, hpipe⟩ := hmay.length_le
        obtain ⟨request, hrequest, hlen, hanswer⟩ := h.underWay
        have hall := pipe_of_answering hanswer hlen (by omega) hpipe
        obtain ⟨hframe, hdrop, houtput⟩ := hall
        obtain ⟨frame, -, -, hin⟩ := hanswer
        constructor
        · intro e he
          rcases List.mem_append.mp he with hmem | hmem
          · exact h.own e hmem
          · rw [List.mem_singleton.mp hmem]
            intro reply hreply
            refine ⟨request, _, hrequest, hframe, ?_⟩
            have hresult : (decodeResponse w.fl w.fb kind (hdr ++ pipe.take n)).mapError RpcError.wire
                = .ok reply := hreply
            show decodeResponse w.fl w.fb kind (hdr ++ pipe.take n) = .ok reply
            cases hdecode : decodeResponse w.fl w.fb kind (hdr ++ pipe.take n) with
            | error e => rw [hdecode] at hresult; cases hresult
            | ok r => rw [hdecode] at hresult; exact congrArg Except.ok (Except.ok.inj hresult)
        · exact fun halive => ⟨(hin halive).1, houtput, hdrop⟩

theorem inv_step {s s' : Channel F} {a : Action} (h : Inv w s) (hsound : Sound s a)
    (hstep : step w s a = some s') : Inv w s' := by
  cases a with
  | call kind lines => exact inv_call h hstep
  | send => exact inv_send h hstep
  | readHeader n => exact inv_readHeader h hsound hstep
  | readBody n => exact inv_readBody h hsound hstep
  | serve => exact inv_serve h hstep
  | emit n => exact inv_emit h hstep
  | die => exact inv_die h hstep

theorem kind_of_compute {lines : List String} {kind : Kind} {outcome : Outcome F}
    (h : w.compute lines kind = .ok outcome) : outcome.kind = kind := by
  cases kind with
  | fp =>
      cases hf : w.fingerprint lines with
      | error e => simp [Worker.compute, hf, Except.map] at h
      | ok f =>
          simp only [Worker.compute, hf, Except.map, Except.ok.injEq] at h
          rw [← h]
          rfl
  | parse =>
      cases hp : w.parse lines with
      | error e => simp [Worker.compute, hp, Except.map] at h
      | ok rows =>
          simp only [Worker.compute, hp, Except.map, Except.ok.injEq] at h
          rw [← h]
          rfl

/-- What such a call returns is what the kernel computes from the lines that the worker decodes. -/
theorem reply_of_own {e : Entry F} {reply : Reply F} (h : Own w e) (hreply : e.result = .ok reply) :
    ∃ request lines outcome, encodeRequest e.kind e.lines = .ok request
      ∧ decodeRequest request = .ok (e.kind, lines) ∧ w.compute lines e.kind = .ok outcome
      ∧ reply = outcome.reply := by
  obtain ⟨request, frame, hrequest, hanswer, hdecode⟩ := h reply hreply
  have hlines := decodeRequest_encodeRequest hrequest
  -- an error that was sent is raised, so nothing else was sent
  have hnoError : ∀ message, encodeResponseErr message ≠ .ok frame := by
    intro message herr
    rw [decodeResponse_err w.fl w.fb herr] at hdecode
    cases hdecode
  unfold Worker.answer at hanswer
  rw [hlines] at hanswer
  dsimp only at hanswer
  split at hanswer
  · exact absurd hanswer (hnoError _)
  · rename_i outcome hcompute
    split at hanswer
    · exact absurd hanswer (hnoError _)
    · rename_i frame' hframe'
      rw [Except.ok.inj hanswer] at hframe'
      obtain ⟨sent, hsent, hreply'⟩ := decodeResponse_of_fits w.fl w.fb
        (fits_of_encodeResponseOk w.fl w.fb hframe')
      rw [hframe'] at hsent
      rw [← Except.ok.inj hsent, kind_of_compute hcompute, hdecode] at hreply'
      exact ⟨request, _, outcome, hrequest, hlines, hcompute, Except.ok.inj hreply'⟩

/-- **Every call gets its own response.**  In every run in which a read of a living worker's
response returns all it asks for, each call that returns has got the worker's response to its own
request. -/
theorem calls_own (w : Worker F) (as : List Action) {s : Channel F}
    (hsound : Respects (step w) Sound Channel.init as) (hrun : exec (step w) Channel.init as = some s) :
    ∀ e ∈ s.log, Own w e :=
  (exec_invariant (fun _ _ _ h hok hstep => inv_step h hok hstep) as Channel.init s (inv_init w) hsound
    hrun).own

end Steps

/-! ## Runs -/

/-- A worker whose rows name the lines they come from. -/
def sampleWorker : Worker SampleFloat where
  fl := sampleText
  fb := sampleBits
  fingerprint lines := .ok ⟨lines.length, 0, .fin .zero, .fin .one⟩
  parse lines := .ok ([], lines.map fun line => ⟨line, "", "", []⟩)
  excText
    | .valueError message => "ValueError: " ++ message
    | .runtimeError message => "RuntimeError: " ++ message
    | .structError => "error: argument out of range"
    | .unicodeDecodeError => "UnicodeDecodeError: 'utf-8' codec can't decode byte"
    | .jsonDecodeError => "JSONDecodeError: Expecting value"

def replyText : Reply SampleFloat → String
  | .fp fingerprint => toString fingerprint.rawStats
  | .parse body => dumps sampleText body

/-- A call whose response comes in two parts, a call whose worker dies in the middle, and a call to the
new worker. -/
def wholeReads : List Action :=
  [.call .fp ["a"], .send, .serve, .emit 10, .emit 20, .readHeader 6, .readBody 24,
    .call .parse ["b"], .send, .serve, .emit 16, .readHeader 6, .die, .readBody 10,
    .call .parse ["c"], .send, .serve, .emit 44, .readHeader 6, .readBody 38]

/-- What a call has returned. -/
def Entry.text (e : Entry SampleFloat) : Option String :=
  e.result.toOption.map replyText

theorem calls_own_wholeReads :
    ∃ s, exec (step sampleWorker) Channel.init wholeReads = some s
      ∧ s.log.map Entry.text
        = [some "1", none, some "[[],[\x7b\"jid\":\"c\",\"host\":\"\",\"proc\":\"\"\x7d]]"]
      ∧ ∀ e ∈ s.log, Own sampleWorker e := by
  have hrun : ((exec (step sampleWorker) Channel.init wholeReads).map fun s => s.log.map Entry.text)
      = some [some "1", none, some "[[],[\x7b\"jid\":\"c\",\"host\":\"\",\"proc\":\"\"\x7d]]"] := by
    decide +kernel
  obtain ⟨s, hs, htexts⟩ := Option.map_eq_some_iff.mp hrun
  exact ⟨s, hs, htexts, calls_own sampleWorker wholeReads (by decide +kernel) hs⟩

/-- Three calls to one worker: the second gives up in what the first has left, the third reads the
response to the second. -/
def shortRead : List Action :=
  [.call .parse ["a"], .send, .serve, .emit 44, .readHeader 6, .readBody 3,
    .call .parse ["b"], .send, .readHeader 6, .readBody 29, .serve, .emit 44,
    .call .parse ["c"], .send, .readHeader 6, .readBody 38]

/-- The text of the worker's response to a request for rows. -/
def ownText (lines : List String) : Option String :=
  ((encodeRequest .parse lines).bind fun request => (sampleWorker.answer request).bind fun frame =>
    decodeResponse sampleText sampleBits .parse frame).toOption.map replyText

/-- **The rows of another call.**  The third call returns the rows of the second. -/
theorem not_calls_own :
    ¬ ∀ (w : Worker SampleFloat) (as : List Action) (s : Channel SampleFloat),
      exec (step w) Channel.init as = some s → ∀ e ∈ s.log, Own w e := by
  intro hall
  have hrun : ((exec (step sampleWorker) Channel.init shortRead).bind fun s =>
      s.log.getLast?.map fun e => (e.kind, e.lines, e.text))
      = some (.parse, ["c"], some "[[],[\x7b\"jid\":\"b\",\"host\":\"\",\"proc\":\"\"\x7d]]") := by
    decide +kernel
  have hown : ownText ["c"] = some "[[],[\x7b\"jid\":\"c\",\"host\":\"\",\"proc\":\"\"\x7d]]" := by
    decide +kernel
  obtain ⟨s, hs, hlast⟩ := Option.bind_eq_some_iff.mp hrun
  obtain ⟨e, he, hentry⟩ := Option.map_eq_some_iff.mp hlast
  obtain ⟨hkind, hlines, htext⟩ : e.kind = .parse ∧ e.lines = ["c"] ∧ e.text = _ := by
    simpa using hentry
  obtain ⟨reply, hreply, hreplyText⟩ := Option.map_eq_some_iff.mp htext
  have hresult : e.result = .ok reply := by
    cases hres : e.result with
    | error e' => rw [hres] at hreply; cases hreply
    | ok r => rw [hres] at hreply; exact congrArg Except.ok (Option.some.inj hreply)
  obtain ⟨request, frame, hrequest, hanswer, hdecode⟩ :=
    hall sampleWorker shortRead s hs e (List.mem_of_getLast? he) reply hresult
  rw [hkind, hlines] at hrequest
  rw [hkind] at hdecode
  have hreturned : ownText ["c"] = some (replyText reply) := by
    unfold ownText
    rw [hrequest]
    show ((sampleWorker.answer request).bind _).toOption.map replyText = _
    rw [hanswer]
    show (decodeResponse sampleText sampleBits .parse frame).toOption.map replyText = _
    have hdecoded : decodeResponse sampleText sampleBits .parse frame = .ok reply := hdecode
    rw [hdecoded]
    rfl
  rw [hown, hreplyText] at hreturned
  exact absurd (Option.some.inj hreturned) (by decide)

end CodonRpc
