import KvRaft.Cluster
import KvRaft.Replica.Completeness

/-!
# KvRaft.Refine.Relation

How a cluster refines the replicated-log protocol of `KvRaft.Replica`: a state
of the protocol stands next to the cluster and says what its nodes and its
messages mean.

How much of the protocol is followed depends on what a run is known not to do
(`Scope`): votes alone hold in every run with fixed membership; logs are
followed as long as no snapshot is taken or installed, or along with commits;
commits are followed as long as no accepted request throws away entries it
agrees with.

* `Global`, `NodeInv`, `CallInv`, `ReplyInv` — the relation, part by part;
* `Moves` — the protocol moved on behalf of one node, which leaves the other
  nodes and all messages as they were (`NodeInv.mono`, `CallInv.mono`,
  `ReplyInv.mono`).
-/

namespace KvRaft

open Replica

/-- What a run is followed through. -/
inductive Scope
  | votes
  | logs
  | commits
  deriving DecidableEq

/-- The state of the replicated-log protocol behind a cluster. -/
abbrev Ghost := Replica.State NodeId LogEntry

variable {σ : Type} {k : Scope} {voters : List NodeId} {s s' s'' : Ghost} {n m : NodeId}
  {nd : RaftNode σ}

/-! ## Nodes -/

/-- The node's hard state and role are those of the protocol. -/
structure VoteInv (voters : List NodeId) (s : Ghost) (n : NodeId) (nd : RaftNode σ) : Prop where
  id : nd.id = n
  config : nd.config.voters = voters
  initial : nd.initialConfig.voters = voters
  synced : nd.log.Synced
  term : nd.log.currentTerm = s.term n
  vote : nd.log.votedFor = (s.vote n (s.term n)).getD 0
  candidate : nd.role = .candidate → s.vote n (s.term n) = some n ∧
    s.leader (s.term n) ≠ some n ∧
    (n ∈ voters → nd.votes (s.term n) = (s.tally n (s.term n)).length)
  leader : nd.role = .leader → s.leader (s.term n) = some n
  plain : ∀ e ∈ nd.log.entries, e.type ≠ .config
  next_pos : ∀ v i, nd.nextIndex.lookup v = some i → 0 < i

/-- The node's log is that of the protocol, as far as it was not compacted. -/
structure LogInv (s : Ghost) (n : NodeId) (nd : RaftNode σ) : Prop where
  log : nd.log.Represents (s.log n)
  stood : nd.role = .candidate → s.log n = s.stood n (s.term n)

/-- `v` has acknowledged index `i` to the leader of term `t`, or the leader's
log is committed up to there anyway. -/
def Matched (s : Ghost) (v : NodeId) (t i : Nat) : Prop :=
  i ≤ (s.hist t).length ∧ (i ≤ s.acked v t ∨ Committed s t ((s.hist t).take i))

/-- What the node has committed and applied is committed in the protocol.  The
commit index may fall behind what is applied. -/
structure CommitInv (voters : List NodeId) (s : Ghost) (n : NodeId) (nd : RaftNode σ) : Prop where
  committed : Committed s (s.term n) ((s.log n).take nd.commitIndex)
  commit_le : nd.commitIndex ≤ s.base n
  applied_committed : Committed s (s.term n) ((s.log n).take nd.lastApplied)
  applied_le : nd.lastApplied ≤ s.base n
  snap_le : nd.log.snapshotIndex ≤ nd.lastApplied
  matched : nd.role = .leader → ∀ v i, nd.matchIndex.lookup v = some i → v ≠ n →
    v ∈ voters ∧ Matched s v (s.term n) i
  applied : ∀ o ∈ nd.applied, ∃ p, Committed s (s.term n) p ∧ o.entry ∈ p
  covered : ∀ i e, nd.log.snapshotIndex ≤ i → i < nd.lastApplied → (s.log n)[i]? = some e →
    e ∈ nd.applied.map Applied.entry

/-- One node stands as the protocol says. -/
structure NodeInv (k : Scope) (voters : List NodeId) (s : Ghost) (n : NodeId) (nd : RaftNode σ) :
    Prop where
  votes : VoteInv voters s n nd
  logs : k ≠ .votes → LogInv s n nd
  uncompacted : k = .logs → s.Clean n ∧ nd.log.snapshotIndex = 0
  commits : k = .commits → CommitInv voters s n nd
  led : k = .commits → nd.role = .leader → s.commit (s.term n) ≤ nd.commitIndex

/-- The protocol's own invariants. -/
structure Global (k : Scope) (voters : List NodeId) (s : Ghost) : Prop where
  elections : Elections voters s
  nonzero : ∀ v t c, s.vote v t = some c → c ≠ 0 ∧ 0 < t
  logs : k ≠ .votes → Logs s
  indexed : k ≠ .votes → ∀ t, PersistentLog.IndexedFrom 0 (s.hist t)
  commits : k = .commits → Commits voters s

/-! ## Messages -/

/-- A request for votes, as long as its callback has not counted the answer. -/
structure VoteCall (k : Scope) (voters : List NodeId) (s : Ghost) (sender target : NodeId)
    (req : RequestVoteReq) (majority : Nat) : Prop where
  candidateId : req.candidateId = sender
  sender_mem : sender ∈ voters
  target_mem : target ∈ voters
  majority : majority = voters.length / 2 + 1
  stood : s.vote sender req.term = some sender
  last : k ≠ .votes → req.lastLogIndex = (s.stood sender req.term).length ∧
    req.lastLogTerm = lastTerm (s.stood sender req.term)

/-- A request comes from the leader of its term and goes to another voter. -/
structure FromLeader (voters : List NodeId) (s : Ghost) (sender target : NodeId) (term : Nat) :
    Prop where
  leader : s.leader term = some sender
  target_mem : target ∈ voters
  ne : target ≠ sender

/-- The request is a piece of the log of its term's leader; a request whose
previous index lies beyond that log carries no entries and no term. -/
def Slice (s : Ghost) (req : AppendEntriesReq) : Prop :=
  (req.prevLogIndex ≤ (s.hist req.term).length ∧
    req.prevLogTerm = termAt (s.hist req.term) req.prevLogIndex ∧
    req.entries <+: (s.hist req.term).drop req.prevLogIndex) ∨
  (0 < req.prevLogIndex ∧ req.prevLogTerm = 0 ∧ req.entries = [])

/-- A request of the leader to append entries. -/
structure AppendCall (k : Scope) (voters : List NodeId) (s : Ghost) (sender target : NodeId)
    (req : AppendEntriesReq) : Prop where
  sent : FromLeader voters s sender target req.term
  plain : ∀ e ∈ req.entries, e.type ≠ .config
  slice : k ≠ .votes → Slice s req
  commit : k = .commits → req.leaderCommit ≤ (s.hist req.term).length ∧
    Committed s req.term ((s.hist req.term).take req.leaderCommit)

/-- A request of the leader to install a snapshot. -/
structure SnapshotCall (k : Scope) (voters : List NodeId) (s : Ghost) (sender target : NodeId)
    (req : InstallSnapshotReq) : Prop where
  sent : FromLeader voters s sender target req.term
  compacting : k ≠ .logs
  snapshot : k = .commits → ∃ p, Committed s req.term p ∧ p.length = req.lastIncludedIndex ∧
    lastTerm p = req.lastIncludedTerm

/-- A call means what the protocol says. -/
def CallInv (k : Scope) (voters : List NodeId) (s : Ghost) (call : Call) : Prop :=
  match call.rpc with
  | .requestVote req majority => VoteCall k voters s call.sender call.target req majority
  | .appendEntries req => AppendCall k voters s call.sender call.target req
  | .installSnapshot req => SnapshotCall k voters s call.sender call.target req

/-- A reply means what the protocol says. -/
def ReplyInv (k : Scope) (voters : List NodeId) (s : Ghost) (r : Reply) : Prop :=
  match r.answer with
  | .requestVote req majority resp =>
      VoteCall k voters s r.sender r.target req majority ∧
        (resp.voteGranted = true → s.vote r.target req.term = some r.sender)
  | .appendEntries req resp =>
      FromLeader voters s r.sender r.target req.term ∧
        (k = .commits → resp.success = true → Matched s r.target req.term resp.matchIndex)
  | .installSnapshot req _ => SnapshotCall k voters s r.sender r.target req

/-- What a pending vote is known by: the candidate, the voter and the term. -/
def Call.voteKey (call : Call) : Option (NodeId × NodeId × Nat) :=
  match call.rpc with
  | .requestVote req _ => some (call.sender, call.target, req.term)
  | _ => none

theorem Call.voteKey_eq_none {call : Call} (h : call.isVote = false) : call.voteKey = none := by
  obtain ⟨sender, target, incarnation, rpc⟩ := call
  cases rpc with
  | requestVote => cases h
  | _ => rfl

def Reply.voteKey (r : Reply) : Option (NodeId × NodeId × Nat) :=
  match r.answer with
  | .requestVote req _ _ => some (r.sender, r.target, req.term)
  | _ => none

/-! ## Moves on behalf of one node -/

/-- The protocol moved on behalf of `n`, which counted at most the votes
`counted` says. -/
structure Moves (n : NodeId) (counted : NodeId → Nat → Prop) (s s' : Ghost) : Prop where
  ext : Extends s s'
  same : ∀ m, m ≠ n → SameNode m s s'
  tally : ∀ v t, v ∈ s'.tally n t → v ∈ s.tally n t ∨ counted v t

/-- No vote is counted. -/
def noVote : NodeId → Nat → Prop := fun _ _ => False

namespace Moves

variable {counted counted' : NodeId → Nat → Prop}

theorem refl (n : NodeId) (counted : NodeId → Nat → Prop) (s : Ghost) : Moves n counted s s :=
  ⟨.refl s, fun m _ => .refl m s, fun _ _ h => .inl h⟩

theorem trans (h : Moves n counted s s') (h' : Moves n counted s' s'') : Moves n counted s s'' where
  ext := h.ext.trans h'.ext
  same := fun m hm => (h.same m hm).trans (h'.same m hm)
  tally := fun v t hv => (h'.tally v t hv).elim (h.tally v t) .inr

theorem mono (hc : ∀ v t, counted v t → counted' v t) (h : Moves n counted s s') :
    Moves n counted' s s' :=
  ⟨h.ext, h.same, fun v t hv => (h.tally v t hv).imp_right (hc v t)⟩

theorem of_noVote (h : Moves n noVote s s') : Moves n counted s s' :=
  h.mono (fun _ _ hf => hf.elim)

end Moves

/-! ## What lasts -/

/-- What is in range of a leader's log does not change when the log grows. -/
theorem take_hist_eq (hx : Extends s s') {t i : Nat} (hi : i ≤ (s.hist t).length) :
    (s'.hist t).take i = (s.hist t).take i := by
  obtain ⟨x, hx⟩ := hx.hist t
  rw [← hx, List.take_append_of_le_length hi]

theorem Matched.mono (hx : Extends s s') {v : NodeId} {t i : Nat} (h : Matched s v t i) :
    Matched s' v t i := by
  refine ⟨Nat.le_trans h.1 (hx.hist t).length_le, ?_⟩
  rw [take_hist_eq hx h.1]
  exact h.2.imp (fun ha => Nat.le_trans ha (hx.acked v t)) (fun hc => hc.mono hx)

theorem FromLeader.mono (hx : Extends s s') {sender target : NodeId} {t : Nat}
    (h : FromLeader voters s sender target t) : FromLeader voters s' sender target t :=
  ⟨hx.leader t sender h.leader, h.target_mem, h.ne⟩

theorem VoteCall.mono (hE : Elections voters s) (hx : Extends s s') {sender target : NodeId}
    {req : RequestVoteReq} {majority : Nat} (h : VoteCall k voters s sender target req majority) :
    VoteCall k voters s' sender target req majority where
  candidateId := h.candidateId
  sender_mem := h.sender_mem
  target_mem := h.target_mem
  majority := h.majority
  stood := hx.vote _ _ _ h.stood
  last := fun hk => by
    rw [hx.stood sender req.term (hE.stood_le _ _ _ h.stood)]
    exact h.last hk

theorem Slice.mono (hx : Extends s s') {req : AppendEntriesReq} (h : Slice s req) :
    Slice s' req := by
  refine h.imp (fun ⟨hlen, hterm, hes⟩ => ?_) id
  have hp := hx.hist req.term
  exact ⟨Nat.le_trans hlen hp.length_le, hterm.trans (termAt_eq_of_isPrefix hp hlen).symm,
    hes.trans (hp.drop _)⟩

theorem AppendCall.mono (hx : Extends s s') {sender target : NodeId} {req : AppendEntriesReq}
    (h : AppendCall k voters s sender target req) : AppendCall k voters s' sender target req where
  sent := h.sent.mono hx
  plain := h.plain
  slice := fun hk => (h.slice hk).mono hx
  commit := fun hk => by
    obtain ⟨hlen, hc⟩ := h.commit hk
    rw [take_hist_eq hx hlen]
    exact ⟨Nat.le_trans hlen (hx.hist _).length_le, hc.mono hx⟩

theorem SnapshotCall.mono (hx : Extends s s') {sender target : NodeId} {req : InstallSnapshotReq}
    (h : SnapshotCall k voters s sender target req) :
    SnapshotCall k voters s' sender target req where
  sent := h.sent.mono hx
  compacting := h.compacting
  snapshot := fun hk => by
    obtain ⟨p, hp, hlen, hlast⟩ := h.snapshot hk
    exact ⟨p, hp.mono hx, hlen, hlast⟩

/-- Calls keep their meaning. -/
theorem CallInv.mono (hE : Elections voters s) (hx : Extends s s') {call : Call}
    (h : CallInv k voters s call) : CallInv k voters s' call := by
  unfold CallInv at h ⊢
  split at h
  · exact VoteCall.mono hE hx h
  · exact AppendCall.mono hx h
  · exact SnapshotCall.mono hx h

/-- Replies keep their meaning. -/
theorem ReplyInv.mono (hE : Elections voters s) (hx : Extends s s') {r : Reply}
    (h : ReplyInv k voters s r) : ReplyInv k voters s' r := by
  unfold ReplyInv at h ⊢
  split at h
  · exact ⟨h.1.mono hE hx, fun hg => hx.vote _ _ _ (h.2 hg)⟩
  · exact ⟨h.1.mono hx, fun hk hs => (h.2 hk hs).mono hx⟩
  · exact SnapshotCall.mono hx h

/-- A node that keeps its term and log stays committed as the protocol grows. -/
theorem CommitInv.mono (hx : Extends s s') (hterm : s'.term m = s.term m)
    (hlog : s'.log m = s.log m) (hbase : s'.base m = s.base m) (h : CommitInv voters s m nd) :
    CommitInv voters s' m nd where
  committed := by rw [hterm, hlog]; exact h.committed.mono hx
  commit_le := by rw [hbase]; exact h.commit_le
  applied_committed := by rw [hterm, hlog]; exact h.applied_committed.mono hx
  applied_le := by rw [hbase]; exact h.applied_le
  snap_le := h.snap_le
  matched := fun hl v i hv hne => by
    rw [hterm]
    exact (h.matched hl v i hv hne).imp_right (Matched.mono hx)
  applied := fun e he => by
    obtain ⟨p, hp, hmem⟩ := h.applied e he
    exact ⟨p, hterm ▸ hp.mono hx, hmem⟩
  covered := by rw [hlog]; exact h.covered

/-- What a node has committed and applied stays so in a later term, which it does not lead. -/
theorem CommitInv.later (hx : Extends s s') (hlog : s'.log m = s.log m)
    (hbase : s'.base m = s.base m) (hr : nd.role ≠ .leader) (h : CommitInv voters s m nd) :
    CommitInv voters s' m nd where
  committed := by rw [hlog]; exact (h.committed.mono hx).term_mono (hx.term m)
  commit_le := by rw [hbase]; exact h.commit_le
  applied_committed := by rw [hlog]; exact (h.applied_committed.mono hx).term_mono (hx.term m)
  applied_le := by rw [hbase]; exact h.applied_le
  snap_le := h.snap_le
  matched := fun hl => absurd hl hr
  applied := fun e he => by
    obtain ⟨p, hp, hmem⟩ := h.applied e he
    exact ⟨p, (hp.mono hx).term_mono (hx.term m), hmem⟩
  covered := by rw [hlog]; exact h.covered

/-- A node stays as it is while the protocol goes on without it. -/
theorem NodeInv.mono (hx : Extends s s') (hs : SameNode m s s') (h : NodeInv k voters s m nd) :
    NodeInv k voters s' m nd := by
  refine ⟨?_, fun hk => ?_, fun hk => ?_, fun hk => (h.commits hk).mono hx hs.term hs.log hs.base,
    fun hk hr => ?_⟩
  · -- votes: whatever the protocol did elsewhere, the node's own votes and tally are the same
    exact {
      id := h.votes.id
      config := h.votes.config
      initial := h.votes.initial
      synced := h.votes.synced
      term := by rw [hs.term]; exact h.votes.term
      vote := by rw [hs.term, hs.vote]; exact h.votes.vote
      candidate := fun hr => by
        obtain ⟨hv, hl, ht⟩ := h.votes.candidate hr
        rw [hs.term, hs.vote, hs.tally]
        exact ⟨hv, fun hl' => hl (hs.leader _ hl'), ht⟩
      leader := fun hr => by
        rw [hs.term]
        exact hx.leader _ _ (h.votes.leader hr)
      plain := h.votes.plain
      next_pos := h.votes.next_pos }
  · refine ⟨?_, fun hr => ?_⟩
    · rw [hs.log]; exact (h.logs hk).log
    · rw [hs.log, hs.term, hs.stood]; exact (h.logs hk).stood hr
  · rw [State.Clean, hs.log, hs.base]
    exact h.uncompacted hk
  · rw [hs.term, hs.commit _ (hx.leader _ _ (h.votes.leader hr))]
    exact h.led hk hr

end KvRaft
