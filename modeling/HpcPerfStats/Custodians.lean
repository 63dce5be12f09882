/-
# The custodians of the jobs in flight

A coordinator thread of this process is the only one to claim the jobs of its kind, to settle them and to take
them back.  `isForeign` says what the other threads may do with the job store, and `foreign_inflight` that this
leaves the jobs in flight of the kind as they are.

`Custodians p kind s hs` says that the list `hs` of identities and tokens is the store's account of these jobs: the
store has each of them in flight under its token, none twice, and no others.  There is a rule for each operation of
the coordinator: a claim joins the list and a settlement takes a job out of it.  A reap leaves a job where its
deadline was moved in time (`Guarded`).
-/
import HpcPerfStats.ListQueues
import HpcPerfStats.LeaseOwners

namespace JobStore

open OrderedDict Custody

/-! ## Tokens of this process -/

/-- A process, as the tokens of its claims name it. -/
structure Process where
  hostname : String
  bootId : String
  pid : ℤ

/-- `make_lease_owner_token`, with its random part. -/
def Process.token (p : Process) (nonce : String) : String := makeLeaseOwnerToken nonce p.hostname p.bootId p.pid

/-- A token of this process. -/
def Minted (p : Process) (token : String) : Prop := ∃ nonce, ':' ∉ nonce.toList ∧ token = p.token nonce

theorem Minted.ne_empty {p : Process} {token : String} (h : Minted p token) : token ≠ "" := by
  obtain ⟨nonce, -, rfl⟩ := h
  intro hempty
  have hlist := congrArg String.toList hempty
  unfold Process.token makeLeaseOwnerToken at hlist
  rw [String.toList_append, TokenText.toList_ledBy_cons] at hlist
  simp at hlist

/-- While this process lives, none of its tokens counts as a dead owner. -/
theorem Minted.not_dead {p : Process} {token : String} (h : Minted p token) {here : Local}
    (halive : here.alive p.pid = true) : ownerIsDead token here = false := by
  obtain ⟨nonce, hnonce, rfl⟩ := h
  rw [Bool.eq_false_iff]
  intro hdead
  have hgone := ((ownerIsDead_make_iff hnonce _ _ _ _).mp hdead).2.2
  rw [halive] at hgone
  cases hgone

/-! ## Other threads -/

/-- What the other threads of the process do with the job store: they neither claim jobs of this kind nor take them
from their owners, and the owners whose leases they steal are dead processes. -/
def isForeign (p : Process) (kind : Kind) : Op → Bool
  | .claimIngest .. => kind != .ingest
  | .claimList k .. => kind != .list k
  | .load => false
  | .ack kind' .. => kind' != kind
  | .requeue kind' .. => kind' != kind
  | .renewJobLease kind' .. => kind' != kind
  | .extendInflightDeadline kind' .. => kind' != kind
  | .reapExpiredInflight kind' .. => kind' != kind
  | .stealDeadOwnerLeases here => here.alive p.pid
  | .stealJobLeaseIfOwnerDead _ _ here => here.alive p.pid
  | .reconcileThisOwnerOrphanLeases kind' .. => kind' != kind
  | _ => true

/-- The owners of the jobs in flight of this kind are claims of this process. -/
def AllMinted (p : Process) (s : Store) (kind : Kind) : Prop :=
  ∀ i e, (s.inflight kind).get i = some e → Minted p e.owner

section Foreign

variable {p : Process} {s s' : Store} {kind kind' : Kind} {ident owner : String}

/-- A requeue for an owner that does not hold the job leaves the jobs in flight alone. -/
theorem requeue_inflight_of_none (score : Option ℚ) (h : kind' = kind → ownedEntry s kind ident owner = none) :
    (requeue s kind' ident owner score).2.inflight kind = s.inflight kind := by
  unfold requeue
  by_cases hkind : kind' = kind
  · subst hkind
    rw [h rfl]
  · cases ownedEntry s kind' ident owner with
    | none => rfl
    | some entry =>
        dsimp only
        rw [putBack_inflight, dropInflight_inflight_of_ne s (Ne.symm hkind)]

theorem ownedEntry_eq_none_of_dead (hminted : AllMinted p s kind) {here : Local} (halive : here.alive p.pid = true)
    (ident : String) (hdead : ownerIsDead owner here = true) : ownedEntry s kind ident owner = none := by
  rw [Option.eq_none_iff_forall_ne_some]
  intro entry hentry
  have hget := isSome_of_ownedEntry hentry
  have howner : entry.owner = owner := by
    obtain ⟨e, he, heq⟩ := custody_eq_held.mp (custody_of_ownedEntry hentry)
    rw [hget, Option.some.injEq] at he
    rw [he]
    exact heq
  have hnot := (hminted ident entry hget).not_dead halive
  rw [howner, hdead] at hnot
  cases hnot

/-- **The steal of dead owners** does not touch what this process has in flight. -/
theorem stealLoop_inflight {here : Local} (halive : here.alive p.pid = true)
    (items : List ((Kind × String) × String)) : ∀ (stolen : ℕ) {s : Store}, AllMinted p s kind →
      (stealLoop here items stolen s).2.inflight kind = s.inflight kind := by
  induction items with
  | nil => exact fun _ _ _ => rfl
  | cons item items ih =>
      intro stolen s hminted
      obtain ⟨⟨kind', ident⟩, ownerToken⟩ := item
      rw [stealLoop]
      split_ifs with hskip
      · exact ih stolen hminted
      all_goals
        have hdead : ownerIsDead ownerToken here = true := by simpa using hskip
        have hsame : (requeue s kind' ident ownerToken none).2.inflight kind = s.inflight kind :=
          requeue_inflight_of_none none fun _ => ownedEntry_eq_none_of_dead hminted halive ident hdead
        refine (ih _ ?_).trans hsame
        intro i e he
        rw [hsame] at he
        exact hminted i e he

theorem writeJobFingerprint_inflight (s : Store) (kind : Kind) (ident fingerprint : String) :
    (writeJobFingerprint s kind ident fingerprint).inflight = s.inflight := by
  unfold writeJobFingerprint
  split_ifs
  · rfl
  · exact setFields_inflight s kind ident _

theorem bumpJobAttempt_inflight (s : Store) (kind : Kind) (ident : String) :
    (bumpJobAttempt s kind ident).2.inflight = s.inflight := by
  unfold bumpJobAttempt
  dsimp only
  split
  · rfl
  · exact setFields_inflight s kind ident _

theorem enqueueList_inflight (s : Store) (k : ListKind) (ident : String) (dedupe : Bool) (cap : ℕ) :
    (enqueueList s k ident dedupe cap).2.inflight = s.inflight := by
  unfold enqueueList
  split_ifs
  · rfl
  · rfl
  · rfl

theorem zaddIngest_inflight (s : Store) (ident : String) (score : ℚ) (fingerprint : Option String) (cap : ℕ) :
    (zaddIngest s ident score fingerprint cap).2.inflight = s.inflight :=
  (zaddIngest_cases s ident score fingerprint cap).1

/-- **What the other threads do** leaves the jobs in flight of the kind as they are. -/
theorem foreign_inflight {op : Op} (hminted : AllMinted p s kind) (hop : isForeign p kind op = true)
    (hstep : step s op = some s') : s'.inflight kind = s.inflight kind := by
  have hne : ∀ {kind' : Kind}, (kind' != kind) = true → kind ≠ kind' := by
    rintro kind' hkind rfl
    simp at hkind
  cases op with
  | zaddIngest ident score fingerprint cap =>
      obtain rfl := Option.some.inj hstep
      rw [zaddIngest_inflight]
  | enqueueList k ident dedupe cap =>
      obtain rfl := Option.some.inj hstep
      rw [enqueueList_inflight]
  | claimIngest band owner deadline maxN fuel =>
      obtain ⟨r, hr, rfl⟩ := Option.map_eq_some_iff.mp hstep
      have hkind : kind ≠ .ingest := by simpa [isForeign] using hop
      refine claimIngest_rule (P := fun t => t.inflight kind = s.inflight kind) rfl (fun want r' hr' => ?_) hr
      refine claimIngestLoop_rule (P := fun t => t.inflight kind = s.inflight kind) ?_ ?_ fuel want rfl hr'
      · intro t band' heap h
        rw [setHeap_inflight]
        exact h
      · intro t ident live h _ _
        rw [addInflight_inflight_of_ne _ hkind, ingestPop_eq]
        exact h
  | claimList k owner deadline =>
      obtain rfl := Option.some.inj hstep
      have hkind : kind ≠ .list k := by simpa [isForeign] using hop
      unfold claimList
      split_ifs
      · rfl
      · refine claimListLoop_rule (P := fun t => t.inflight kind = s.inflight kind) ?_ ?_ _ rfl
        · exact fun _ _ _ h => h
        · intro t ident h
          rw [addInflight_inflight_of_ne t hkind]
          exact h
  | ack kind' ident owner =>
      obtain rfl := Option.some.inj hstep
      unfold ack
      cases ownedEntry s kind' ident owner with
      | none => rfl
      | some entry =>
          have hdrop := dropInflight_inflight_of_ne s (hne hop) ident
          cases kind' with
          | ingest => exact hdrop
          | list k => exact hdrop
  | requeue kind' ident owner score =>
      obtain rfl := Option.some.inj hstep
      exact requeue_inflight_of_none score fun heq => absurd heq.symm (hne hop)
  | renewJobLease kind' ident owner deadline =>
      obtain rfl := Option.some.inj hstep
      unfold renewJobLease
      cases ownedEntry s kind' ident owner with
      | none => rfl
      | some entry =>
          dsimp only
          rw [addInflight_inflight_of_ne s (hne hop)]
  | extendInflightDeadline kind' ident deadline =>
      obtain rfl := Option.some.inj hstep
      unfold extendInflightDeadline
      cases (s.inflight kind').get ident with
      | none => rfl
      | some entry => exact Function.update_of_ne (hne hop) _ _
  | reapExpiredInflight kind' now limit =>
      obtain rfl := Option.some.inj hstep
      unfold reapExpiredInflight
      refine reapLoop_rule (P := fun t => t.inflight kind = s.inflight kind) _ _ _ ?_ [] rfl
      intro item _ t h
      rw [putBack_inflight, dropInflight_inflight_of_ne t (hne hop)]
      exact h
  | stealDeadOwnerLeases here =>
      obtain rfl := Option.some.inj hstep
      exact stealLoop_inflight hop _ 0 hminted
  | stealJobLeaseIfOwnerDead kind' ident here =>
      obtain rfl := Option.some.inj hstep
      unfold stealJobLeaseIfOwnerDead
      cases s.leases.get (kind', ident) with
      | none => rfl
      | some ownerToken =>
          dsimp only
          split_ifs with halive
          · rfl
          all_goals
            have hdead : ownerIsDead ownerToken here = true := by
              simpa using fun hfalse => halive (Or.inr hfalse)
            exact requeue_inflight_of_none none fun _ => ownedEntry_eq_none_of_dead hminted hop ident hdead
  | reconcileThisOwnerOrphanLeases kind' known owner =>
      obtain rfl := Option.some.inj hstep
      unfold reconcileThisOwnerOrphanLeases
      refine reconcileLoop_rule (P := fun t => t.inflight kind = s.inflight kind) _ _ _ ?_ 0 rfl
      intro item _ t h
      rw [requeue_inflight_of_none _ fun heq => absurd heq.symm (hne hop)]
      exact h
  | writeJobFingerprint kind' ident fingerprint =>
      obtain rfl := Option.some.inj hstep
      rw [writeJobFingerprint_inflight]
  | bumpJobAttempt kind' ident =>
      obtain rfl := Option.some.inj hstep
      rw [bumpJobAttempt_inflight]
  | reorderList k orderedIdents =>
      obtain rfl := Option.some.inj hstep
      unfold reorderList
      split_ifs
      · rfl
      · rfl
  | persistFlush written =>
      obtain rfl := Option.some.inj hstep
      rfl
  | load => cases hop

end Foreign

/-! ## The custodians -/

/-- Where the jobs of a kind are. -/
def book (s : Store) (kind : Kind) (identity : String) : Status String := custody s (kind, identity)

theorem book_eq_held {s : Store} {kind : Kind} {i owner : String} :
    book s kind i = .held owner ↔ ∃ e, (s.inflight kind).get i = some e ∧ e.owner = owner :=
  custody_eq_held

/-- The jobs in flight of this kind are the claims of the list. -/
structure Custodians (p : Process) (kind : Kind) (s : Store) (hs : List (String × String)) : Prop where
  inHand : InHand (book s kind) hs
  accounted : Accounted (book s kind) hs
  minted : AllMinted p s kind

/-- A claim in the list. -/
def claimKey (job : ClaimedJob) : String × String := (job.identity, job.ownerToken)

section Moves

variable {p : Process} {kind : Kind} {s s' : Store} {hs hs' : List (String × String)} {i token : String}

/-- A store without a job in flight. -/
theorem custodians_nil (h : ∀ i, (s.inflight kind).get i = none) : Custodians p kind s [] := by
  have hnone : ∀ i e, (s.inflight kind).get i ≠ some e := by
    intro i e he
    rw [h] at he
    cases he
  refine ⟨inHand_nil, ?_, fun i e he => absurd he (hnone i e)⟩
  intro i token hheld
  obtain ⟨e, he, -⟩ := book_eq_held.mp hheld
  exact absurd he (hnone i e)

theorem Custodians.perm (h : Custodians p kind s hs) (hp : hs.Perm hs') : Custodians p kind s hs' :=
  ⟨h.inHand.perm hp, h.accounted.mono hp.subset, h.minted⟩

/-- The same jobs are held by the same owners. -/
theorem Custodians.frame (h : Custodians p kind s hs)
    (hbook : ∀ i token, book s' kind i = .held token ↔ book s kind i = .held token) : Custodians p kind s' hs := by
  refine ⟨h.inHand.frame fun c _ => (hbook c.1 c.2).mpr, h.accounted.frame fun i token => (hbook i token).mp, ?_⟩
  intro i e he
  obtain ⟨e', he', heq⟩ := book_eq_held.mp ((hbook i e.owner).mp (book_eq_held.mpr ⟨e, he, rfl⟩))
  exact heq ▸ h.minted i e' he'

theorem Custodians.congr (h : Custodians p kind s hs) (hinflight : s'.inflight kind = s.inflight kind) :
    Custodians p kind s' hs :=
  h.frame fun i token => by rw [book_eq_held, book_eq_held, hinflight]

/-- The entry of a claim in the list. -/
theorem Custodians.entry (h : Custodians p kind s hs) (hmem : (i, token) ∈ hs) :
    ∃ e, (s.inflight kind).get i = some e ∧ e.owner = token :=
  book_eq_held.mp (h.inHand.held (i, token) hmem)

/-- The jobs in flight are those of the list. -/
theorem Custodians.inFlight_iff (h : Custodians p kind s hs) (i token : String) :
    (∃ e, (s.inflight kind).get i = some e ∧ e.owner = token) ↔ (i, token) ∈ hs := by
  rw [← book_eq_held]
  exact ⟨h.accounted i token, h.inHand.held (i, token)⟩

/-- The owner of a claim in the list may settle it. -/
theorem Custodians.owned (h : Custodians p kind s hs) (hmem : (i, token) ∈ hs) :
    ∃ e, ownedEntry s kind i token = some e := by
  obtain ⟨e, he, rfl⟩ := h.entry hmem
  refine ⟨e, ?_⟩
  unfold ownedEntry
  rw [if_neg (h.minted i e he).ne_empty, he]
  simp [Option.filter]

/-- An entry leaves the jobs in flight with the claim in front. -/
theorem Custodians.release (h : Custodians p kind s ((i, token) :: hs))
    (hinflight : s'.inflight kind = (s.inflight kind).pop i) : Custodians p kind s' hs := by
  have hget : ∀ j, (s'.inflight kind).get j = if j = i then none else (s.inflight kind).get j := by
    intro j
    rw [hinflight, get_pop]
  have hbook : ∀ j token, j ≠ i → (book s' kind j = .held token ↔ book s kind j = .held token) := by
    intro j token hj
    rw [book_eq_held, book_eq_held, hget, if_neg hj]
  have hgone : ∀ token, book s' kind i ≠ .held token := by
    intro token hheld
    obtain ⟨e, he, -⟩ := book_eq_held.mp hheld
    rw [hget, if_pos rfl] at he
    cases he
  refine ⟨h.inHand.drop fun j token hj => (hbook j token hj).mpr,
    h.accounted.drop hgone fun j token hj => (hbook j token hj).mp, ?_⟩
  intro j e he
  rw [hget] at he
  split_ifs at he
  exact h.minted j e he

theorem Custodians.settle (h : Custodians p kind s ((i, token) :: hs)) :
    Custodians p kind (ack s kind i token).2 hs ∧ (ack s kind i token).1 = true := by
  obtain ⟨e, he⟩ := h.owned List.mem_cons_self
  unfold ack
  rw [he]
  refine ⟨h.release ?_, rfl⟩
  have hdrop := dropInflight_inflight s kind i
  cases kind with
  | ingest => exact hdrop
  | list k => exact hdrop

theorem Custodians.giveBack (h : Custodians p kind s ((i, token) :: hs)) (score : Option ℚ) :
    Custodians p kind (requeue s kind i token score).2 hs ∧ (requeue s kind i token score).1 = true := by
  obtain ⟨e, he⟩ := h.owned List.mem_cons_self
  unfold requeue
  rw [he]
  refine ⟨h.release ?_, rfl⟩
  show (putBack (dropInflight s kind i) kind i _).inflight kind = _
  rw [putBack_inflight, dropInflight_inflight]

/-- The store takes back every claim of the list. -/
theorem Custodians.accepts (h : Custodians p kind s hs) (hmem : (i, token) ∈ hs) (score : Option ℚ) :
    (ack s kind i token).1 = true ∧ (requeue s kind i token score).1 = true := by
  have hfront := h.perm (List.perm_cons_erase hmem)
  exact ⟨hfront.settle.2, (hfront.giveBack score).2⟩

/-- **Jobs are claimed.** -/
theorem Custodians.claim (h : Custodians p kind s hs) {jobs : List ClaimedJob} (hminted : Minted p token)
    (hclaimed : Claimed s s' kind token jobs) : Custodians p kind s' (jobs.map claimKey ++ hs) := by
  have hrest : ∀ j token', book s' kind j = .held token' →
      (j, token') ∈ jobs.map claimKey ∨ book s kind j = .held token' := by
    intro j token' hheld
    by_cases hj : ∃ job ∈ jobs, job.identity = j
    · obtain ⟨job, hjob, rfl⟩ := hj
      have hafter := hclaimed.after job hjob
      obtain rfl := Status.held.inj (hafter.symm.trans hheld)
      refine Or.inl (List.mem_map.mpr ⟨job, hjob, ?_⟩)
      unfold claimKey
      rw [(hclaimed.token job hjob).2]
    · refine Or.inr ((hclaimed.rest (kind, j) ?_).symm.trans hheld)
      intro job hjob heq
      exact hj ⟨job, hjob, (Prod.mk.inj heq).2.symm⟩
  have hbatch : InHand (book s' kind) (jobs.map claimKey) := by
    refine ⟨?_, ?_⟩
    · rw [List.map_map]
      exact hclaimed.nodup
    · intro c hc
      obtain ⟨job, hjob, rfl⟩ := List.mem_map.mp hc
      unfold claimKey
      rw [(hclaimed.token job hjob).2]
      exact hclaimed.after job hjob
  refine ⟨h.inHand.claim hbatch ?_ ?_, h.accounted.claim hrest, ?_⟩
  · intro c hc token' hheld
    obtain ⟨job, hjob, rfl⟩ := List.mem_map.mp hc
    have hqueued : book s kind (claimKey job).1 = .queued := hclaimed.before job hjob
    rw [hqueued] at hheld
    cases hheld
  · intro c _ hheld
    rcases hclaimed.cases (kind, c.1) with hsame | ⟨hqueued, -⟩
    · exact hsame.trans hheld
    · have hqueued' : book s kind c.1 = .queued := hqueued
      rw [hqueued'] at hheld
      cases hheld
  · intro j e he
    have hheld : book s' kind j = .held e.owner := book_eq_held.mpr ⟨e, he, rfl⟩
    rcases hrest j e.owner hheld with hmem | hold
    · obtain ⟨job, hjob, heq⟩ := List.mem_map.mp hmem
      rw [← (Prod.mk.inj heq).2, (hclaimed.token job hjob).2]
      exact hminted
    · obtain ⟨e', he', heq⟩ := book_eq_held.mp hold
      exact heq ▸ h.minted j e' he'

/-- **A LIST job is claimed**, or there is none. -/
theorem Custodians.claimList {k : ListKind} (h : Custodians p (.list k) s hs) {nonce : String}
    (hnonce : ':' ∉ nonce.toList) (deadline : ℚ) :
    ∃ job s', claimList s k (p.token nonce) deadline = (.ok job, s') ∧
      Custodians p (.list k) s' (job.toList.map claimKey ++ hs) := by
  have hminted : Minted p (p.token nonce) := ⟨nonce, hnonce, rfl⟩
  unfold JobStore.claimList
  rw [if_neg hminted.ne_empty]
  exact ⟨_, _, rfl, h.claim hminted (claimListLoop_claimed k _ deadline _ s)⟩

/-- Some claims lapse: what is left are those that the store still has. -/
theorem Custodians.lapse (h : Custodians p kind s hs)
    (hheld : ∀ j token, book s' kind j = .held token → book s kind j = .held token) :
    Custodians p kind s' (hs.filter fun c => ((s'.inflight kind).get c.1).isSome) := by
  have hentry : ∀ j e, (s'.inflight kind).get j = some e → book s kind j = .held e.owner :=
    fun j e he => hheld j e.owner (book_eq_held.mpr ⟨e, he, rfl⟩)
  refine ⟨?_, ?_, ?_⟩
  · refine (h.inHand.sublist List.filter_sublist).frame ?_
    intro c hc hold
    obtain ⟨e, he⟩ := Option.isSome_iff_exists.mp (List.mem_filter.mp hc).2
    have howner := Status.held.inj ((hentry c.1 e he).symm.trans hold)
    exact book_eq_held.mpr ⟨e, he, howner⟩
  · intro j token' hj
    obtain ⟨e, he, -⟩ := book_eq_held.mp hj
    exact List.mem_filter.mpr ⟨h.accounted j token' (hheld j token' hj), Option.isSome_iff_exists.mpr ⟨e, he⟩⟩
  · intro j e he
    obtain ⟨e', he', heq⟩ := book_eq_held.mp (hentry j e he)
    exact heq ▸ h.minted j e' he'

end Moves

/-! ## Claims in a local map -/

/-- The claims in the local maps. -/
def localClaims (claims : Dict String ClaimedJob) : List (String × String) :=
  claims.entries.map fun e => (e.1, e.2.ownerToken)

theorem localClaims_pop {claims : Dict String ClaimedJob} {i : String} {job : ClaimedJob}
    (h : claims.get i = some job) :
    (localClaims claims).Perm ((i, job.ownerToken) :: localClaims (claims.pop i)) :=
  (perm_pop h).map _

theorem localClaims_pop_of_none {claims : Dict String ClaimedJob} {i : String} (h : claims.get i = none) :
    localClaims (claims.pop i) = localClaims claims := by
  unfold localClaims
  rw [entries_pop_of_none h]

theorem localClaims_set {claims : Dict String ClaimedJob} {i : String} (h : claims.get i = none) (job : ClaimedJob) :
    (localClaims (claims.set i job)).Perm ((i, job.ownerToken) :: localClaims claims) := by
  unfold localClaims
  rw [entries_set_of_none h, List.map_append]
  exact List.perm_append_singleton _ _

theorem mem_localClaims {claims : Dict String ClaimedJob} {i : String} {job : ClaimedJob}
    (h : claims.get i = some job) : (i, job.ownerToken) ∈ localClaims claims :=
  List.mem_map.mpr ⟨(i, job), mem_of_get h, rfl⟩

/-! ## Failed attempts -/

/-- `_retry_or_dead_letter` from the count of the attempt on. -/
def retryOrDeadLetter (s : Store) (kind : Kind) (job : ClaimedJob) (attempt maxAttempts : ℤ) : Store :=
  if attempt < maxAttempts then (requeue s kind job.identity job.ownerToken job.score).2
  else (ack s kind job.identity job.ownerToken).2

theorem Custodians.retryOrDeadLetter {p : Process} {kind : Kind} {s : Store} {hs : List (String × String)}
    {job : ClaimedJob} (h : Custodians p kind s (claimKey job :: hs)) (attempt maxAttempts : ℤ) :
    Custodians p kind (retryOrDeadLetter s kind job attempt maxAttempts) hs := by
  unfold JobStore.retryOrDeadLetter
  split_ifs
  · exact (h.giveBack job.score).1
  · exact h.settle.1

/-! ## Deadlines and the reap -/

/-- The seconds that `_protect_local_inflight_deadlines` adds. -/
def extendSeconds : ℚ := 600

/-- The deadline of a job lies behind the reap. -/
def Guarded (s : Store) (kind : Kind) (since : ℚ) (i : String) : Prop :=
  ∃ e, (s.inflight kind).get i = some e ∧ since + extendSeconds ≤ e.deadline

section Reap

variable {p : Process} {kind : Kind} {s s' : Store} {hs : List (String × String)} {i : String} {since now : ℚ}

theorem Guarded.congr (h : Guarded s kind since i) (hinflight : s'.inflight kind = s.inflight kind) :
    Guarded s' kind since i := by
  obtain ⟨e, he, hdeadline⟩ := h
  exact ⟨e, by rw [hinflight]; exact he, hdeadline⟩

/-- A deadline that is moved, for the entry that is there. -/
theorem get_extendInflightDeadline (s : Store) (kind : Kind) (identity : String) (deadline : ℚ) (i : String) :
    ((extendInflightDeadline s kind identity deadline).2.inflight kind).get i =
      if i = identity then ((s.inflight kind).get i).map fun e => ⟨deadline, e.owner, e.score⟩
      else (s.inflight kind).get i := by
  unfold extendInflightDeadline
  cases hentry : (s.inflight kind).get identity with
  | none =>
      dsimp only
      split_ifs with hi
      · rw [hi, hentry]
        rfl
      · rfl
  | some entry =>
      dsimp only
      rw [Function.update_self, get_set]
      split_ifs with hi
      · rw [hi, hentry]
        rfl
      · rfl

theorem Custodians.extend (h : Custodians p kind s hs) (identity : String) (deadline : ℚ) :
    Custodians p kind (extendInflightDeadline s kind identity deadline).2 hs := by
  refine h.frame fun i token => ?_
  rw [book_eq_held, book_eq_held, get_extendInflightDeadline]
  split_ifs
  · simp
  · rfl

/-- A deadline that is moved guards its job, and leaves the others. -/
theorem Guarded.extend {identity : String} (hnow : since ≤ now) (hheld : ∃ e, (s.inflight kind).get i = some e)
    (h : i = identity ∨ Guarded s kind since i) :
    Guarded (extendInflightDeadline s kind identity (now + extendSeconds)).2 kind since i := by
  have hget := get_extendInflightDeadline s kind identity (now + extendSeconds) i
  by_cases heq : i = identity
  · obtain ⟨e, he⟩ := hheld
    refine ⟨⟨now + extendSeconds, e.owner, e.score⟩, ?_, add_le_add_left hnow _⟩
    rw [hget, if_pos heq, he]
    rfl
  · obtain ⟨e, he, hdeadline⟩ := h.resolve_left heq
    refine ⟨e, ?_, hdeadline⟩
    rw [hget, if_neg heq]
    exact he

/-- What a reap does to a job. -/
theorem book_reap (s : Store) (kind : Kind) (now : ℚ) (limit : ℤ) (i : String) :
    book (reapExpiredInflight s kind now limit).2 kind i = book s kind i ∨
      (book (reapExpiredInflight s kind now limit).2 kind i = .queued ∧ Overdue s kind now (kind, i)) := by
  rcases givenBack_reap s kind now _ (kind, i) _ (fun _ hitem => get_of_mem hitem) [] (Or.inl rfl) with
    hsame | ⟨-, hdue, -, hqueued⟩
  · exact Or.inl hsame
  · exact Or.inr ⟨hqueued, hdue⟩

theorem book_of_reap {token : String} {limit : ℤ}
    (h : book (reapExpiredInflight s kind now limit).2 kind i = .held token) : book s kind i = .held token := by
  rcases book_reap s kind now limit i with hsame | ⟨hqueued, -⟩
  · exact hsame.symm.trans h
  · rw [hqueued] at h
    cases h

/-- **A guarded job** is not reaped. -/
theorem Guarded.book_reap (h : Guarded s kind since i) (hnow : now - inflightReapGraceFloor < since + extendSeconds)
    (limit : ℤ) : book (reapExpiredInflight s kind now limit).2 kind i = book s kind i := by
  obtain ⟨e, he, hdeadline⟩ := h
  rcases JobStore.book_reap s kind now limit i with hsame | ⟨-, -, e', he', hdue⟩
  · exact hsame
  · obtain rfl := Option.some.inj (he.symm.trans he')
    exact absurd (hdeadline.trans hdue) (not_le.mpr hnow)

/-- **A reap of guarded jobs** takes none of them. -/
theorem Custodians.reap (h : Custodians p kind s hs) (hguarded : ∀ c ∈ hs, Guarded s kind since c.1)
    (hnow : now - inflightReapGraceFloor < since + extendSeconds) (limit : ℤ) :
    Custodians p kind (reapExpiredInflight s kind now limit).2 hs := by
  refine h.frame fun i token => ⟨book_of_reap, fun hheld => ?_⟩
  have hmem := h.accounted i token hheld
  rw [(hguarded (i, token) hmem).book_reap hnow limit]
  exact hheld

end Reap

/-- A new token has no orphans. -/
theorem book_reconcileOrphans {s : Store} {kind : Kind} {owner : String} (known : List String)
    (hnew : ∀ i e, (s.inflight kind).get i = some e → e.owner ≠ owner) (i token : String) :
    book (reconcileThisOwnerOrphanLeases s kind known owner).2 kind i = .held token ↔
      book s kind i = .held token := by
  have hback := givenBack_reconcile s kind known owner (kind, i) (s.inflight kind).entries 0 (Or.inl rfl)
  rcases hback with hsame | ⟨owner', ⟨-, -, rfl⟩, hheld, -⟩
  · rw [show book (reconcileThisOwnerOrphanLeases s kind known owner).2 kind i = book s kind i from hsame]
  · obtain ⟨e, he, howner⟩ := custody_eq_held.mp hheld
    exact absurd howner (hnew i e he)

/-! ## The steps of a coordinator -/

/-- What the coordinator of this kind does with the job store itself: it claims, settles and takes back jobs of its
kind only, and asks for `dedupe` when it queues others. -/
def isOwn (p : Process) (kind : Kind) : Op → Bool
  | .enqueueList _ _ dedupe _ => dedupe
  | .claimIngest .. => kind == .ingest
  | .claimList k .. => kind == .list k
  | .ack kind' .. => kind' == kind
  | .requeue kind' .. => kind' == kind
  | .renewJobLease kind' .. => kind' == kind
  | .extendInflightDeadline kind' .. => kind' == kind
  | .reapExpiredInflight kind' .. => kind' == kind
  | .stealDeadOwnerLeases here => here.alive p.pid
  | .stealJobLeaseIfOwnerDead _ _ here => here.alive p.pid
  | .reconcileThisOwnerOrphanLeases kind' .. => kind' == kind
  | .reorderList k _ => kind == .list k
  | .load => false
  | _ => true

/-- To the coordinator of another kind it is what another thread may do. -/
theorem isForeign_of_isOwn {p : Process} {kind kind' : Kind} {op : Op} (h : isOwn p kind op = true)
    (hne : kind' ≠ kind) : isForeign p kind' op = true := by
  have hother : ∀ {kind'' : Kind}, (kind'' == kind) = true → (kind'' != kind') = true := by
    intro kind'' heq
    rw [eq_of_beq heq]
    exact bne_iff_ne.mpr hne.symm
  have hswap : ∀ {kind'' : Kind}, (kind == kind'') = true → (kind' != kind'') = true := by
    intro kind'' heq
    rw [← eq_of_beq heq]
    exact bne_iff_ne.mpr hne
  cases op with
  | claimIngest band owner deadline maxN fuel => exact hswap h
  | claimList k owner deadline => exact hswap h
  | ack kind'' ident owner => exact hother h
  | requeue kind'' ident owner score => exact hother h
  | renewJobLease kind'' ident owner deadline => exact hother h
  | extendInflightDeadline kind'' ident deadline => exact hother h
  | reapExpiredInflight kind'' now limit => exact hother h
  | stealDeadOwnerLeases here => exact h
  | stealJobLeaseIfOwnerDead kind'' ident here => exact h
  | reconcileThisOwnerOrphanLeases kind'' known owner => exact hother h
  | load => exact h
  | _ => rfl

theorem deduped_of_isOwn {p : Process} {kind : Kind} {op : Op} (h : isOwn p kind op = true) : Deduped op := by
  cases op with
  | enqueueList k ident dedupe cap => exact h
  | _ => trivial

/-- The coordinator of the ingest jobs keeps the parts of the store in step. -/
theorem stepOk_of_isOwn {p : Process} {s : Store} {op : Op} (h : isOwn p .ingest op = true) : StepOk s op := by
  cases op with
  | claimList k owner deadline => cases h
  | ack kind ident owner =>
      obtain rfl := eq_of_beq (show (kind == Kind.ingest) = true from h)
      trivial
  | load => cases h
  | _ => trivial

/-- At most one operation that is no `load`: it acknowledges a job of this kind only where it may, and it is one of
those allowed. -/
def OneOp (kind : Kind) (may : String → Prop) (allowed : Op → Prop) (s s' : Store) : Prop :=
  s' = s ∨ ∃ op, op ≠ .load ∧ step s op = some s' ∧ (∀ i owner, op = .ack kind i owner → may i) ∧ allowed op

section OneOp

variable {kind : Kind} {may : String → Prop} {allowed : Op → Prop} {s s' : Store} {i owner : String}

theorem OneOp.same : OneOp kind may allowed s s := Or.inl rfl

theorem OneOp.ack (hmay : may i) (h : allowed (.ack kind i owner)) :
    OneOp kind may allowed s (ack s kind i owner).2 := by
  refine Or.inr ⟨.ack kind i owner, by simp, rfl, ?_, h⟩
  intro i' owner' heq
  obtain ⟨-, rfl, -⟩ := Op.ack.inj heq
  exact hmay

theorem OneOp.op (op : Op) (hload : op ≠ .load) (hack : ∀ i owner, op ≠ .ack kind i owner) (h : allowed op)
    (hstep : step s op = some s') : OneOp kind may allowed s s' :=
  Or.inr ⟨op, hload, hstep, fun i owner heq => absurd heq (hack i owner), h⟩

theorem OneOp.requeue {score : Option ℚ} (h : allowed (.requeue kind i owner score)) :
    OneOp kind may allowed s (requeue s kind i owner score).2 :=
  OneOp.op (.requeue kind i owner score) (by simp) (by simp) h rfl

/-- A job that one operation makes disappear was acknowledged. -/
theorem OneOp.settled (h : OneOp kind may allowed s s') (hs : custody s (kind, i) ≠ .absent)
    (hs' : custody s' (kind, i) = .absent) : may i := by
  rcases h with rfl | ⟨op, hload, hop, hack, -⟩
  · exact absurd hs' hs
  · cases effect_step hload hop (kind, i) with
    | stay h => exact absurd (h.symm.trans hs') hs
    | enqueue h => exact absurd h hs
    | claim owner _ h' =>
        rw [h'] at hs'
        cases hs'
    | settle owner _ _ heq => exact hack i owner heq
    | giveBack owner _ h' =>
        rw [h'] at hs'
        cases hs'

/-- **No job disappears** but at a step that may acknowledge it. -/
theorem settled_of_oneOps {σ α : Type*} {stp : σ → α → Option σ} (store : σ → Store) {may : σ → α → String → Prop}
    {allowed : σ → α → Op → Prop} {as : List α} {u v : σ}
    (hone : ∀ u a u', stp u a = some u' → OneOp kind (may u a) (allowed u a) (store u) (store u'))
    (hrun : Transition.exec stp u as = some v) (hu : custody (store u) (kind, i) ≠ .absent)
    (hv : custody (store v) (kind, i) = .absent) :
    ∃ n a w, as[n]? = some a ∧ Transition.exec stp u (as.take n) = some w ∧ may w a i := by
  obtain ⟨n, a, w, w', ha, hw, hstep, hPw, hPw'⟩ :=
    exists_first_step (P := fun u => custody (store u) (kind, i) ≠ .absent) hu hrun (fun h => h hv)
  exact ⟨n, a, w, ha, hw, (hone w a w' hstep).settled hPw (not_not.mp hPw')⟩

end OneOp

end JobStore
