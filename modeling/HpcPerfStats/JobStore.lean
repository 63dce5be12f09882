/-
# The job store of the orchestrator (`sync_timedb_job_store.py`)

`SyncTimedbJobStore` keeps the queued and the claimed jobs of the sync orchestrator.  Queued ingest
jobs stand in a map from identity to score, with a lazy heap and a counter for each score band; the
jobs of the three LIST kinds stand in FIFO lists, with a set of the identities beside each list.  A
claim moves a job to the in-flight map of its kind and writes a lease.  A shadow copy of the queued
state is kept up to date with every change and is what the snapshot on disk is written from.

The model has one function for each operation of the source and for each of the helpers that they
share.  A heap is the list of its entries in order, so that `heappop` takes its head.  Scores and
deadlines are exact numbers, a band and a kind is one of those that the source names, and the clock
is an argument.  `_dirty` and the persist thread are left out here: a write of the snapshot is an
operation of its own (`persistFlush`), and `disk` is what it wrote last.
-/
import HpcPerfStats.OrderedDict
import HpcPerfStats.PyText
import Mathlib.Data.Finset.Dedup
import Mathlib.Data.Finset.Erase
import Mathlib.Data.Finset.Insert
import Mathlib.Data.List.Sort
import Mathlib.Algebra.Order.Ring.Rat
import Mathlib.Data.String.Basic

namespace JobStore

open OrderedDict PyText

/-! ## Data -/

/-- `JOB_KINDS_LIST`. -/
inductive ListKind where
  | discover
  | append
  | dayClose
  deriving DecidableEq

/-- `JOB_KINDS_ALL`. -/
inductive Kind where
  | ingest
  | list (k : ListKind)
  deriving DecidableEq

/-- The score bands. -/
inductive Band where
  | hot
  | catchup
  deriving DecidableEq

/-- `CATCHUP_SCORE_BASE`. -/
def catchupScoreBase : ℚ := 1000000000000000

/-- `LEASE_CONFLICT_SCORE_PENALTY`, which is `SCORE_STRIDE`. -/
def leaseConflictScorePenalty : ℚ := 1000000

/-- `INFLIGHT_REAP_GRACE_FLOOR_S`. -/
def inflightReapGraceFloor : ℚ := 30

/-- `decode_ingest_band`. -/
def decodeIngestBand (score : ℚ) : Band := if score < catchupScoreBase then .hot else .catchup

/-- The score is in `ingest_score_range`. -/
def inScoreRange : Band → ℚ → Bool
  | .hot, score => score ≤ catchupScoreBase - 1
  | .catchup, score => catchupScoreBase ≤ score

/-- An entry of an in-flight map. -/
structure Inflight where
  deadline : ℚ
  owner : String
  score : Option ℚ

/-- `ClaimedJob`. -/
structure ClaimedJob where
  kind : Kind
  identity : String
  ownerToken : String
  deadline : ℚ
  score : Option ℚ
  fingerprint : String

/-- The fields of a payload. -/
abbrev Fields := Dict String String

/-- The queued state as it is copied and written. -/
structure Snapshot where
  ingest : Dict String ℚ
  lists : ListKind → List String
  pending : ListKind → Finset String
  payloads : Dict (Kind × String) Fields

/-- `SyncTimedbJobStore`, with the document on disk. -/
structure Store where
  ingest : Dict String ℚ
  heapHot : List (ℚ × String)
  heapCatchup : List (ℚ × String)
  hotN : ℕ
  catchupN : ℕ
  lists : ListKind → List String
  pending : ListKind → Finset String
  inflight : Kind → Dict String Inflight
  leases : Dict (Kind × String) String
  payloads : Dict (Kind × String) Fields
  shadow : Snapshot
  disk : Snapshot

/-- The document that `load` reads when there is no file. -/
def Snapshot.empty : Snapshot := ⟨Dict.empty, fun _ => [], fun _ => ∅, Dict.empty⟩

/-- The store before `load`, beside the document on disk. -/
def Store.init (disk : Snapshot) : Store where
  ingest := Dict.empty
  heapHot := []
  heapCatchup := []
  hotN := 0
  catchupN := 0
  lists := fun _ => []
  pending := fun _ => ∅
  inflight := fun _ => Dict.empty
  leases := Dict.empty
  payloads := Dict.empty
  shadow := Snapshot.empty
  disk := disk

/-! ## The helpers under the lock -/

/-- The order of the heap entries. -/
def heapLe (a b : ℚ × String) : Prop := a.1 < b.1 ∨ (a.1 = b.1 ∧ a.2 ≤ b.2)

instance : DecidableRel heapLe := fun a b =>
  inferInstanceAs (Decidable (a.1 < b.1 ∨ (a.1 = b.1 ∧ a.2 ≤ b.2)))

/-- `_ingest_heap_for_band_locked`. -/
def Store.heap (s : Store) : Band → List (ℚ × String)
  | .hot => s.heapHot
  | .catchup => s.heapCatchup

def Store.setHeap (s : Store) (band : Band) (heap : List (ℚ × String)) : Store :=
  match band with
  | .hot => { s with heapHot := heap }
  | .catchup => { s with heapCatchup := heap }

/-- `_ingest_heap_push_locked`. -/
def ingestHeapPush (s : Store) (ident : String) (score : ℚ) : Store :=
  let band := decodeIngestBand score
  s.setHeap band ((s.heap band).orderedInsert heapLe (score, ident))

/-- `_ingest_band_inc_locked`. -/
def ingestBandInc (s : Store) (score : ℚ) : Store :=
  match decodeIngestBand score with
  | .hot => { s with hotN := s.hotN + 1 }
  | .catchup => { s with catchupN := s.catchupN + 1 }

/-- `_ingest_band_dec_locked`. -/
def ingestBandDec (s : Store) (score : ℚ) : Store :=
  match decodeIngestBand score with
  | .hot => { s with hotN := s.hotN - 1 }
  | .catchup => { s with catchupN := s.catchupN - 1 }

/-- `_identity_is_queued_locked`. -/
def identityIsQueued (s : Store) : Kind × String → Bool
  | (.ingest, ident) => (s.ingest.get ident).isSome
  | (.list k, ident) => ident ∈ s.pending k

/-- Membership in `_queued_identities_locked`. -/
def queuedIdentities (s : Store) : Kind × String → Bool
  | (.ingest, ident) => (s.ingest.get ident).isSome
  | (.list k, ident) => ident ∈ s.lists k

/-- Membership in `_inflight_identities_locked`. -/
def inflightIdentities (s : Store) (key : Kind × String) : Bool :=
  ((s.inflight key.1).get key.2).isSome

/-- `_shadow_sync_payload_locked`. -/
def shadowSyncPayload (s : Store) (kind : Kind) (ident : String) : Store :=
  let payloads :=
    match identityIsQueued s (kind, ident), s.payloads.get (kind, ident) with
    | true, some fields => s.shadow.payloads.set (kind, ident) fields
    | _, _ => s.shadow.payloads.pop (kind, ident)
  { s with shadow := { s.shadow with payloads := payloads } }

/-- `_ingest_set_locked`. -/
def ingestSet (s : Store) (ident : String) (score : ℚ) : Store :=
  let s := match s.ingest.get ident with
    | some old => ingestBandDec s old
    | none => s
  let s := { s with ingest := s.ingest.set ident score }
  let s := ingestBandInc s score
  let s := ingestHeapPush s ident score
  let s := { s with shadow := { s.shadow with ingest := s.shadow.ingest.set ident score } }
  shadowSyncPayload s .ingest ident

/-- `_ingest_pop_locked`, for an identity that is queued with this score. -/
def ingestPop (s : Store) (ident : String) (old : ℚ) : Store :=
  let s := { s with ingest := s.ingest.pop ident }
  let s := ingestBandDec s old
  { s with shadow := { s.shadow with
      ingest := s.shadow.ingest.pop ident
      payloads := s.shadow.payloads.pop (.ingest, ident) } }

/-- The lines that `enqueue_list`, `requeue` and `reap_expired_inflight` share: the identity joins the
list, the set and their shadows. -/
def listAppend (s : Store) (k : ListKind) (ident : String) : Store :=
  let s := { s with
    lists := Function.update s.lists k (s.lists k ++ [ident])
    pending := Function.update s.pending k (insert ident (s.pending k))
    shadow := { s.shadow with
      lists := Function.update s.shadow.lists k (s.shadow.lists k ++ [ident])
      pending := Function.update s.shadow.pending k (insert ident (s.shadow.pending k)) } }
  shadowSyncPayload s (.list k) ident

/-- The job leaves the in-flight map and its lease is dropped. -/
def dropInflight (s : Store) (kind : Kind) (ident : String) : Store :=
  { s with
    inflight := Function.update s.inflight kind ((s.inflight kind).pop ident)
    leases := s.leases.pop (kind, ident) }

/-- The job joins the in-flight map with its lease. -/
def addInflight (s : Store) (kind : Kind) (ident : String) (entry : Inflight) : Store :=
  { s with
    inflight := Function.update s.inflight kind ((s.inflight kind).set ident entry)
    leases := s.leases.set (kind, ident) entry.owner }

/-! ## The operations -/

/-- `zadd_ingest`; `cap` is `discover_ingest_capacity_limit()`. -/
def zaddIngest (s : Store) (ident : String) (score : ℚ) (fingerprint : Option String) (cap : ℕ) :
    ℕ × Store :=
  if ((s.inflight .ingest).get ident).isSome then (0, s)
  else
    let existed := (s.ingest.get ident).isSome
    if !existed && !(s.ingest.size < cap) && decodeIngestBand score != .hot then (0, s)
    else
      let s := ingestSet s ident score
      let s := match fingerprint with
        | some fp =>
            if fp = "" then s
            else
              let fields := (s.payloads.get (.ingest, ident)).getD Dict.empty
              shadowSyncPayload
                { s with payloads := s.payloads.set (.ingest, ident) (fields.set "fingerprint" fp) }
                .ingest ident
        | none => s
      (if existed then 0 else 1, s)

/-- `enqueue_list`; `cap` is `queue_capacity_limit()`. -/
def enqueueList (s : Store) (k : ListKind) (ident : String) (dedupe : Bool) (cap : ℕ) : ℕ × Store :=
  if dedupe && (decide (ident ∈ s.pending k) || ((s.inflight (.list k)).get ident).isSome) then (0, s)
  else if !((s.lists k).length < cap) then (0, s)
  else
    let s := listAppend s k ident
    ((s.lists k).length, s)

/-- The loop of `claim_ingest`: `want` more jobs are to be claimed; `none` when the loop has not ended
after `fuel` rounds. -/
def claimIngestLoop (band : Band) (owner : String) (deadline : ℚ) :
    ℕ → ℕ → Store → Option (List ClaimedJob × Store)
  | _, 0, s => some ([], s)
  | 0, _ + 1, _ => none
  | fuel + 1, want + 1, s =>
      match s.heap band with
      | [] => some ([], s)
      | (snapScore, ident) :: rest =>
          let s := s.setHeap band rest
          if ((s.inflight .ingest).get ident).isSome then
            claimIngestLoop band owner deadline fuel (want + 1) s
          else
            match s.ingest.get ident with
            | none => claimIngestLoop band owner deadline fuel (want + 1) s
            | some live =>
                -- a stale entry, or one of the other band, is armed again with its live score
                if live ≠ snapScore ∨ inScoreRange band live = false then
                  claimIngestLoop band owner deadline fuel (want + 1) (ingestHeapPush s ident live)
                else
                  let s := ingestPop s ident live
                  let s := addInflight s .ingest ident ⟨deadline, owner, some live⟩
                  let fields := (s.payloads.get (.ingest, ident)).getD Dict.empty
                  let job : ClaimedJob := ⟨.ingest, ident, owner, deadline, some live,
                    (fields.get "fingerprint").getD ""⟩
                  (claimIngestLoop band owner deadline fuel want s).map fun r => (job :: r.1, r.2)

/-- `claim_ingest`; an error leaves the store as it is. -/
def claimIngest (s : Store) (band : Band) (owner : String) (deadline : ℚ) (maxN : ℤ) (fuel : ℕ) :
    Option (Except String (List ClaimedJob) × Store) :=
  if owner = "" then some (.error "owner_token is required to claim a job", s)
  else if maxN < 1 then some (.error "max_n must be >= 1", s)
  else (claimIngestLoop band owner deadline fuel maxN.toNat s).map fun r => (.ok r.1, r.2)

/-- The shadow list without the identity that left the list. -/
def shadowListDrop (shadowList : List String) (ident : String) : List String :=
  if shadowList.head? = some ident then shadowList.tail
  else if ident ∈ shadowList then shadowList.erase ident
  else shadowList

/-- The identity at the front of a list leaves it, with the set and their shadows. -/
def listPop (s : Store) (k : ListKind) (ident : String) (rest : List String) : Store :=
  { s with
    lists := Function.update s.lists k rest
    pending := Function.update s.pending k ((s.pending k).erase ident)
    shadow := { s.shadow with
      lists := Function.update s.shadow.lists k (shadowListDrop (s.shadow.lists k) ident)
      pending := Function.update s.shadow.pending k ((s.shadow.pending k).erase ident)
      payloads := s.shadow.payloads.pop (.list k, ident) } }

/-- The loop of `claim_list`: every round takes one identity off the list. -/
def claimListLoop (k : ListKind) (owner : String) (deadline : ℚ) :
    ℕ → Store → Option ClaimedJob × Store
  | 0, s => (none, s)
  | n + 1, s =>
      match s.lists k with
      | [] => (none, s)
      | ident :: rest =>
          let s := listPop s k ident rest
          if ((s.inflight (.list k)).get ident).isSome then claimListLoop k owner deadline n s
          else
            (some ⟨.list k, ident, owner, deadline, none, ""⟩,
              addInflight s (.list k) ident ⟨deadline, owner, none⟩)

/-- `claim_list`; an error leaves the store as it is. -/
def claimList (s : Store) (k : ListKind) (owner : String) (deadline : ℚ) :
    Except String (Option ClaimedJob) × Store :=
  if owner = "" then (.error "owner_token is required to claim a job", s)
  else
    let r := claimListLoop k owner deadline (s.lists k).length s
    (.ok r.1, r.2)

/-- The in-flight entry of a job, when this owner holds it. -/
def ownedEntry (s : Store) (kind : Kind) (ident owner : String) : Option Inflight :=
  if owner = "" then none
  else ((s.inflight kind).get ident).filter fun e => e.owner == owner

/-- `ack`. -/
def ack (s : Store) (kind : Kind) (ident owner : String) : Bool × Store :=
  match ownedEntry s kind ident owner with
  | none => (false, s)
  | some _ =>
      let s := dropInflight s kind ident
      let s := { s with payloads := s.payloads.pop (kind, ident) }
      (true, match kind with
        | .ingest => s
        | .list k =>
            { s with pending := Function.update s.pending k ((s.pending k).erase ident) })

/-- A job that left the in-flight map goes back to its queue, an ingest job with this score. -/
def putBack (s : Store) (kind : Kind) (ident : String) (score : ℚ) : Store :=
  match kind with
  | .ingest => ingestSet s ident score
  | .list k => listAppend s k ident

/-- `requeue`. -/
def requeue (s : Store) (kind : Kind) (ident owner : String) (score : Option ℚ) : Bool × Store :=
  match ownedEntry s kind ident owner with
  | none => (false, s)
  | some _ => (true, putBack (dropInflight s kind ident) kind ident (score.getD catchupScoreBase))

/-- `renew_job_lease`, to the new deadline. -/
def renewJobLease (s : Store) (kind : Kind) (ident owner : String) (deadline : ℚ) : Bool × Store :=
  match ownedEntry s kind ident owner with
  | none => (false, s)
  | some entry => (true, addInflight s kind ident ⟨deadline, entry.owner, entry.score⟩)

/-- `extend_inflight_deadline`, to the new deadline. -/
def extendInflightDeadline (s : Store) (kind : Kind) (ident : String) (deadline : ℚ) : Bool × Store :=
  match (s.inflight kind).get ident with
  | none => (false, s)
  | some entry =>
      let entries := (s.inflight kind).set ident ⟨deadline, entry.owner, entry.score⟩
      (true, { s with inflight := Function.update s.inflight kind entries })

/-- The loop of `reap_expired_inflight` over the in-flight entries: what was returned so far. -/
def reapLoop (kind : Kind) (cutoff : ℚ) (want : ℕ) :
    List (String × Inflight) → List String → Store → List String × Store
  | [], out, s => (out, s)
  | (ident, entry) :: items, out, s =>
      if out.length ≥ want then (out, s)
      else if entry.deadline > cutoff then reapLoop kind cutoff want items out s
      else
        let restore := entry.score.getD catchupScoreBase + leaseConflictScorePenalty
        reapLoop kind cutoff want items (out ++ [ident])
          (putBack (dropInflight s kind ident) kind ident restore)

/-- `reap_expired_inflight`. -/
def reapExpiredInflight (s : Store) (kind : Kind) (now : ℚ) (limit : ℤ) : List String × Store :=
  reapLoop kind (now - inflightReapGraceFloor) (max 1 limit).toNat (s.inflight kind).entries [] s

/-! ## Leases of dead owners -/

/-- `LeaseOwner`. -/
structure LeaseOwner where
  nonce : String
  hostname : String
  bootId : String
  pid : Option ℤ

/-- `parse_lease_owner`. -/
def parseLeaseOwner (ownerToken : String) : LeaseOwner :=
  let parts := splitSep ':' ownerToken
  let pid := if parts.length ≥ 2 then pyInt (parts.getLastD "") else none
  if parts.length ≥ 4 then
    ⟨parts.headD "", parts.getD (parts.length - 3) "", parts.getD (parts.length - 2) "", pid⟩
  else ⟨parts.headD "", "", "", pid⟩

/-- What a process knows about the owners of leases: its host, its boot and the processes alive. -/
structure Local where
  hostname : String
  bootId : String
  alive : ℤ → Bool

/-- `.replace(":", "_").replace("|", "_")`. -/
def tokenPart (text : String) : String :=
  String.ofList (text.toList.map fun c => if c = ':' ∨ c = '|' then '_' else c)

/-- `lease_owner_is_locally_evaluable`. -/
def leaseOwnerIsLocallyEvaluable (owner : LeaseOwner) (here : Local) : Bool :=
  owner.hostname ≠ "" && owner.bootId ≠ "" && owner.hostname == tokenPart here.hostname &&
    owner.bootId == tokenPart here.bootId

/-- The owner is a process of this host and boot that is dead. -/
def ownerIsDead (ownerToken : String) (here : Local) : Bool :=
  let owner := parseLeaseOwner ownerToken
  owner.pid.any fun pid => leaseOwnerIsLocallyEvaluable owner here && !here.alive pid

/-- The loop of `steal_dead_owner_leases` over the leases. -/
def stealLoop (here : Local) : List ((Kind × String) × String) → ℕ → Store → ℕ × Store
  | [], stolen, s => (stolen, s)
  | ((kind, ident), ownerToken) :: items, stolen, s =>
      if ownerIsDead ownerToken here = false then stealLoop here items stolen s
      else
        let r := requeue s kind ident ownerToken none
        stealLoop here items (if r.1 then stolen + 1 else stolen) r.2

/-- `steal_dead_owner_leases`. -/
def stealDeadOwnerLeases (s : Store) (here : Local) : ℕ × Store :=
  stealLoop here s.leases.entries 0 s

/-- `steal_job_lease_if_owner_dead`. -/
def stealJobLeaseIfOwnerDead (s : Store) (kind : Kind) (ident : String) (here : Local) :
    Bool × Store :=
  match s.leases.get (kind, ident) with
  | none => (false, s)
  | some ownerToken =>
      if ownerToken = "" ∨ ownerIsDead ownerToken here = false then (false, s)
      else
        let r := requeue s kind ident ownerToken none
        if r.1 then r
        else if r.2.leases.get (kind, ident) ≠ some ownerToken then (false, r.2)
        else (true, { r.2 with leases := r.2.leases.pop (kind, ident) })

/-- The loop of `reconcile_this_owner_orphan_leases` over the in-flight entries. -/
def reconcileLoop (kind : Kind) (known : List String) (owner : String) :
    List (String × Inflight) → ℕ → Store → ℕ × Store
  | [], recovered, s => (recovered, s)
  | (ident, entry) :: items, recovered, s =>
      if ident ∈ known ∨ entry.owner ≠ owner then reconcileLoop kind known owner items recovered s
      else
        let r := requeue s kind ident entry.owner entry.score
        reconcileLoop kind known owner items (if r.1 then recovered + 1 else recovered) r.2

/-- `reconcile_this_owner_orphan_leases`. -/
def reconcileThisOwnerOrphanLeases (s : Store) (kind : Kind) (known : List String) (owner : String) :
    ℕ × Store :=
  reconcileLoop kind known owner (s.inflight kind).entries 0 s

/-! ## Payloads, order and the snapshot -/

/-- The fields of a payload are written; a queued one is mirrored. -/
def setFields (s : Store) (kind : Kind) (ident : String) (fields : Fields) : Store :=
  let s := { s with payloads := s.payloads.set (kind, ident) fields }
  if identityIsQueued s (kind, ident) then shadowSyncPayload s kind ident else s

/-- `write_job_fingerprint`. -/
def writeJobFingerprint (s : Store) (kind : Kind) (ident fingerprint : String) : Store :=
  if fingerprint = "" then s
  else setFields s kind ident
    (((s.payloads.get (kind, ident)).getD Dict.empty).set "fingerprint" fingerprint)

/-- The attempt counter of a payload; `none` when it is no number. -/
def readAttempt (fields : Fields) : Option ℤ :=
  match fields.get "attempt" with
  | none => some 0
  | some text => if text = "" then some 0 else pyInt text

/-- `bump_job_attempt`; `none` when `int` raises, which leaves the store as it is. -/
def bumpJobAttempt (s : Store) (kind : Kind) (ident : String) : Option ℤ × Store :=
  let fields := (s.payloads.get (kind, ident)).getD Dict.empty
  match readAttempt fields with
  | none => (none, s)
  | some n => (some (n + 1), setFields s kind ident (fields.set "attempt" (toString (n + 1))))

/-- `reorder_list`. -/
def reorderList (s : Store) (k : ListKind) (orderedIdents : List String) : Bool × Store :=
  if (s.lists k).Perm orderedIdents ∧ s.lists k ≠ orderedIdents then
    (true, { s with
      lists := Function.update s.lists k orderedIdents
      shadow := { s.shadow with
        lists := Function.update s.shadow.lists k orderedIdents } })
  else (false, s)

/-- `_persist_writer_flush_once`: payloads of no job are dropped, and the shadow is written unless the
write fails. -/
def persistFlush (s : Store) (written : Bool) : Store :=
  let shadow := { s.shadow with payloads := s.shadow.payloads.keep (queuedIdentities s) }
  { s with
    payloads := s.payloads.keep fun key => queuedIdentities s key || inflightIdentities s key
    shadow := shadow
    disk := if written then shadow else s.disk }

/-- `load`. -/
def load (s : Store) : Store :=
  let s := { s with ingest := s.disk.ingest, heapHot := [], heapCatchup := [] }
  let s := s.ingest.entries.foldl (fun s e => ingestHeapPush s e.1 e.2) s
  let s := { s with
    lists := s.disk.lists
    pending := s.disk.pending
    payloads := s.disk.payloads
    inflight := fun _ => Dict.empty
    leases := Dict.empty }
  let s := { s with payloads := s.payloads.keep (queuedIdentities s) }
  { s with
    shadow := ⟨s.ingest, s.lists, s.pending, s.payloads.keep (queuedIdentities s)⟩
    hotN := s.ingest.count fun score => decodeIngestBand score == .hot
    catchupN := s.ingest.count fun score => decodeIngestBand score == .catchup }

end JobStore
