import KvRaft.Pool
import KvRaft.RaftNode

/-!
# KvRaft.Threads

One node and the threads that run in it, at the granularity of its lock.  A
`Stretch` is the code a thread runs while it holds `mu_`, or one call of the
state machine or of the log outside it; every function of `raft/raft_node.cpp`
is a sequence of stretches, and what it keeps in local variables in between
is carried by the stretch that comes next.

`Threads` is a node with any number of threads, each in the middle of some
function.  Requests, replies, timers and clients start new threads
(`Entry`), any thread may run its next stretch, and the process may crash and
start again.  Next to that a history records what the stretches did
(`History`), which no code reads.
-/

namespace KvRaft

/-- A change of the membership that a client has asked for. -/
inductive Change
  | add (id : NodeId) (address : Bytes)
  | remove (id : NodeId)
  deriving DecidableEq

/-- The configuration after the change. -/
def Change.apply (c : ClusterConfig) : Change → ClusterConfig
  | add id address => RaftNode.withServer c id address
  | remove id => RaftNode.withoutServer c id

/-- What leaves a node. -/
inductive Output
  | call (c : Call)
  | answer (a : Answer)
  /-- `waitApplied` has returned true -/
  | applied (index : Nat) (result : Bytes)
  /-- `linearizableReadBarrier` has returned true -/
  | readable (target : Nat)
  deriving DecidableEq

inductive Stretch
  | becomeFollower (term : Nat) (leader : NodeId)
  | becomeCandidate
  /-- `won` is the term of the candidacy whose majority triggered the call -/
  | becomeLeader (won : Nat)
  | propose (commandBytes : Bytes) (type : EntryType)
  | tryAdvanceCommitIndex
  | applyCommittedEntries
  /-- the loop over the entries that were claimed -/
  | applyLoop (toApply : List LogEntry)
  | storeResult (index : Nat) (result : Bytes)
  | broadcastAppendEntries
  /-- one round of the loop over the peers -/
  | replicateTo (peer : NodeId)
  | sendTo (peer : NodeId) (ni : Nat)
  | sendAppendEntriesTo (peer : NodeId)
  | sendInstallSnapshotTo (peer : NodeId)
  | loadSnapshotBytes (peer : NodeId) (term idx snapTerm : Nat)
  /-- `sm_->snapshot()` for a request, where there is no file -/
  | snapshotFor (peer : NodeId) (term idx snapTerm : Nat)
  | handleRequestVote (req : RequestVoteReq) (majority : Nat)
  | castVote (req : RequestVoteReq) (majority : Nat)
  | handleAppendEntries (req : AppendEntriesReq)
  | acceptEntries (req : AppendEntriesReq)
  | answerAppended (req : AppendEntriesReq)
  | handleInstallSnapshot (req : InstallSnapshotReq)
  | acceptSnapshot (req : InstallSnapshotReq)
  | onRequestVoteReply (newTerm majority : Nat) (resp : RequestVoteResp)
  | onAppendEntriesReply (peer : NodeId) (term : Nat) (resp : AppendEntriesResp)
  | onInstallSnapshotReply (peer : NodeId) (idx : Nat) (resp : InstallSnapshotResp)
  /-- `addServer` or `removeServer` reads the configuration -/
  | changeServer (change : Change)
  /-- and proposes the one it computed from it -/
  | proposeChange (change : Change) (seen : ClusterConfig)
  | maybeSnapshot
  | forceSnapshot
  /-- `sm_->snapshot()` for an index and term read before -/
  | takeSnapshot (idx term : Nat)
  | compactUpTo (idx term : Nat) (bytes : Bytes)
  | waitApplied (index : Nat)
  | linearizableReadBarrier
  | awaitTarget (target : Nat)
  deriving DecidableEq

namespace Stretch

variable {σ : Type} [StateMachine σ]

/-- `propose` up to the point where it lets go of the lock. -/
def append (n : RaftNode σ) (commandBytes : Bytes) (type : EntryType) :
    Outcome (RaftNode σ) Stretch Output :=
  if n.role ≠ .leader then ⟨n, [], []⟩
  else ⟨{ n with log := n.log.appendAndSync [n.newEntry commandBytes type] },
    [.tryAdvanceCommitIndex], []⟩

/-- What a stretch does to the node and what its thread runs next. -/
def run (n : RaftNode σ) : Stretch → Outcome (RaftNode σ) Stretch Output
  | becomeFollower term leader => ⟨n.becomeFollower term leader, [], []⟩
  -- the requests are made from what was read under the lock
  | becomeCandidate =>
      let n := n.stand
      if n.config.hasVoter n.id = false ∧ n.config.voters.length > 0 then ⟨n, [], []⟩
      else
        let n := { n with votes := Function.update n.votes n.log.currentTerm 1 }
        if 1 ≥ n.majority then ⟨n, [.becomeLeader n.log.currentTerm], []⟩
        else ⟨n, [], (n.config.voters.filter (· ≠ n.id)).map fun peer =>
          .call ⟨n.id, peer, n.incarnation, .requestVote n.requestVoteReq n.majority⟩⟩
  -- the guard is on the role alone, whatever term the majority was of
  | becomeLeader _ =>
      if n.role ≠ .candidate then ⟨n, [], []⟩
      else ⟨n.lead, [.propose [] .noOp, .tryAdvanceCommitIndex, .broadcastAppendEntries], []⟩
  | propose commandBytes type => append n commandBytes type
  -- the larger median of the match indices, if its entry is of the current term
  | tryAdvanceCommitIndex =>
      if n.role ≠ .leader then ⟨n, [], []⟩
      else match n.sortedMatches[n.config.voters.length / 2]? with
        | none => ⟨n, [], []⟩
        | some candidate =>
            if candidate > n.commitIndex ∧ n.log.termAt candidate = n.log.currentTerm then
              ⟨{ n with commitIndex := candidate }, [.applyCommittedEntries], []⟩
            else ⟨n, [], []⟩
  -- `lastApplied_` moves before anything is applied
  | applyCommittedEntries => ⟨n.claim, [.applyLoop n.toApply], []⟩
  -- `sm_->apply` runs without the node's lock, the result is stored under it
  | applyLoop [] => ⟨n, [], []⟩
  | applyLoop (e :: rest) =>
      ⟨(n.applyOne e).1, [.storeResult e.index (n.applyOne e).2, .applyLoop rest], []⟩
  | storeResult index result => ⟨n.storeResult index result, [], []⟩
  -- the loop looks up the next index and the snapshot index one after the other
  | broadcastAppendEntries =>
      if n.role ≠ .leader then ⟨n, [], []⟩
      else ⟨n, (n.config.voters.filter (· ≠ n.id)).map .replicateTo, []⟩
  | replicateTo peer => ⟨n, [.sendTo peer ((n.nextIndex.lookup peer).getD 1)], []⟩
  | sendTo peer ni =>
      ⟨n, [if ni ≤ n.log.snapshotIndex then .sendInstallSnapshotTo peer
        else .sendAppendEntriesTo peer], []⟩
  | sendAppendEntriesTo peer =>
      if n.role ≠ .leader then ⟨n, [], []⟩
      else ⟨n, [], [.call ⟨n.id, peer, n.incarnation, .appendEntries (n.appendEntriesReq peer)⟩]⟩
  | sendInstallSnapshotTo peer =>
      if n.role ≠ .leader then ⟨n, [], []⟩
      else ⟨n, [.loadSnapshotBytes peer n.log.currentTerm n.log.snapshotIndex n.log.snapshotTerm],
        []⟩
  -- the file may be another one by now than the index and term that were read
  | loadSnapshotBytes peer term idx snapTerm =>
      match n.log.loadSnapshotBytes with
      | none => ⟨n, [.snapshotFor peer term idx snapTerm], []⟩
      | some bytes =>
          ⟨n, [], [.call ⟨n.id, peer, n.incarnation,
            .installSnapshot ⟨term, n.id, idx, snapTerm, bytes⟩⟩]⟩
  | snapshotFor peer term idx snapTerm =>
      ⟨n, [], [.call ⟨n.id, peer, n.incarnation,
        .installSnapshot ⟨term, n.id, idx, snapTerm, StateMachine.snapshot n.sm⟩⟩]⟩
  -- a higher term is taken over in a section of its own, and the vote cast in the next
  | handleRequestVote req majority =>
      if req.term < n.log.currentTerm then
        ⟨n, [], [.answer (.requestVote req majority ⟨n.log.currentTerm, false⟩)]⟩
      else if req.term > n.log.currentTerm then
        ⟨n, [.becomeFollower req.term 0, .castVote req majority], []⟩
      else ⟨(n.castVote req).1, [], [.answer (.requestVote req majority (n.castVote req).2)]⟩
  | castVote req majority =>
      ⟨(n.castVote req).1, [], [.answer (.requestVote req majority (n.castVote req).2)]⟩
  | handleAppendEntries req =>
      if req.term < n.log.currentTerm then
        ⟨n, [], [.answer (.appendEntries req ⟨n.log.currentTerm, false, 0, 0, 0⟩)]⟩
      else ⟨n, [.becomeFollower req.term req.leaderId, .acceptEntries req], []⟩
  -- the term is not compared again after `becomeFollower`
  | acceptEntries req =>
      let n := { n with leaderId := req.leaderId }
      match RaftNode.consistencyCheck n.log req with
      | some (matchIndex, conflictIndex, conflictTerm) =>
          ⟨n, [], [.answer (.appendEntries req
            ⟨n.log.currentTerm, false, matchIndex, conflictIndex, conflictTerm⟩)]⟩
      | none => ⟨n.acceptEntries req, [.applyCommittedEntries, .answerAppended req], []⟩
  | answerAppended req =>
      ⟨n, [], [.answer (.appendEntries req
        ⟨n.log.currentTerm, true, RaftNode.newLast req, 0, 0⟩)]⟩
  | handleInstallSnapshot req =>
      if req.term < n.log.currentTerm then
        ⟨n, [], [.answer (.installSnapshot req ⟨n.log.currentTerm⟩)]⟩
      else ⟨n, [.becomeFollower req.term req.leaderId, .acceptSnapshot req], []⟩
  | acceptSnapshot req =>
      if req.lastIncludedIndex ≤ n.log.snapshotIndex then
        ⟨n, [], [.answer (.installSnapshot req ⟨n.log.currentTerm⟩)]⟩
      else ⟨n.acceptSnapshot req, [], [.answer (.installSnapshot req ⟨n.log.currentTerm⟩)]⟩
  -- the callbacks run when an answer comes, with the term of their request
  | onRequestVoteReply newTerm majority resp =>
      if n.role ≠ .candidate ∨ n.log.currentTerm ≠ newTerm then ⟨n, [], []⟩
      else if resp.term > newTerm then ⟨n, [.becomeFollower resp.term 0], []⟩
      else if resp.voteGranted then
        let v := n.votes newTerm + 1
        let n := { n with votes := Function.update n.votes newTerm v }
        if v ≥ majority then ⟨n, [.becomeLeader newTerm], []⟩ else ⟨n, [], []⟩
      else ⟨n, [], []⟩
  | onAppendEntriesReply peer term resp =>
      if resp.term > n.log.currentTerm then ⟨n, [.becomeFollower resp.term 0], []⟩
      else if n.role ≠ .leader ∨ n.log.currentTerm ≠ term then ⟨n, [], []⟩
      else if resp.success then
        ⟨{ n with
            matchIndex := n.matchIndex.insert peer resp.matchIndex
            nextIndex := n.nextIndex.insert peer (resp.matchIndex + 1) },
          [.tryAdvanceCommitIndex], []⟩
      else
        let newNext := if resp.conflictIndex > 0 then resp.conflictIndex else 1
        ⟨{ n with nextIndex := n.nextIndex.insert peer (max 1 newNext) }, [], []⟩
  | onInstallSnapshotReply peer idx resp =>
      if resp.term > n.log.currentTerm then ⟨n, [.becomeFollower resp.term 0], []⟩
      else
        ⟨{ n with
            matchIndex := n.matchIndex.insert peer idx
            nextIndex := n.nextIndex.insert peer (idx + 1) }, [], []⟩
  -- the configuration is read in one section and proposed in another
  | changeServer change => ⟨n, [.proposeChange change n.config], []⟩
  | proposeChange change seen => append n (change.apply seen).encode .config
  -- the difference is taken in 64 bits
  | maybeSnapshot =>
      if (n.lastApplied + 2 ^ 64 - n.log.snapshotIndex) % 2 ^ 64 ≥ n.snapshotThresholdEntries then
        ⟨n, [.forceSnapshot], []⟩
      else ⟨n, [], []⟩
  | forceSnapshot =>
      if n.lastApplied ≤ n.log.snapshotIndex then ⟨n, [], []⟩
      else ⟨n, [.takeSnapshot n.lastApplied (n.log.termAt n.lastApplied)], []⟩
  | takeSnapshot idx term => ⟨n, [.compactUpTo idx term (StateMachine.snapshot n.sm)], []⟩
  | compactUpTo idx term bytes => ⟨{ n with log := n.log.compactUpTo idx term bytes }, [], []⟩
  -- a waiting thread looks again whenever it is woken
  | waitApplied index =>
      match n.waitApplied index with
      | none => ⟨n, [.waitApplied index], []⟩
      | some result => ⟨n, [], [.applied index result]⟩
  | linearizableReadBarrier =>
      match n.readTarget with
      | none => ⟨n, [], []⟩
      | some target => ⟨n, [.broadcastAppendEntries, .awaitTarget target], []⟩
  | awaitTarget target =>
      if n.lastApplied ≥ target then ⟨n, [], [.readable target]⟩
      else ⟨n, [.awaitTarget target], []⟩

end Stretch

/-! ## A node and its threads -/

/-- Why a thread enters the node. -/
inductive Entry
  | timeout
  | heartbeat
  | snapshotTimer
  | rpc (rpc : Rpc)
  | reply (peer : NodeId) (answer : Answer)
  | propose (commandBytes : Bytes)
  | changeServer (change : Change)
  | forceSnapshot
  | waitApplied (index : Nat)
  | readBarrier
  deriving DecidableEq

/-- The function it enters. -/
def Entry.stretch : Entry → Stretch
  | timeout => .becomeCandidate
  | heartbeat => .broadcastAppendEntries
  | snapshotTimer => .maybeSnapshot
  | rpc (.requestVote req majority) => .handleRequestVote req majority
  | rpc (.appendEntries req) => .handleAppendEntries req
  | rpc (.installSnapshot req) => .handleInstallSnapshot req
  | reply _ (.requestVote req majority resp) => .onRequestVoteReply req.term majority resp
  | reply peer (.appendEntries req resp) => .onAppendEntriesReply peer req.term resp
  | reply peer (.installSnapshot req resp) =>
      .onInstallSnapshotReply peer req.lastIncludedIndex resp
  | propose commandBytes => .propose commandBytes .command
  | changeServer change => .changeServer change
  | forceSnapshot => .forceSnapshot
  | waitApplied index => .waitApplied index
  | readBarrier => .linearizableReadBarrier

/-- What the stretches have done. -/
structure History (σ : Type) where
  /-- what was applied since the process was started -/
  life : List (Applied σ)
  /-- what was applied since the state machine was last restored -/
  since : List (Applied σ)
  /-- the index of the snapshot it was last restored from -/
  base : Nat
  /-- the highest index of a snapshot it was restored from, in this life -/
  covered : Nat
  /-- the terms in which the node was a candidate, over all its lives -/
  stood : List Nat
  /-- the configuration entries the node has proposed, over all its lives -/
  changes : List (LogEntry × Change)

variable {σ : Type}

/-- A start on a log with this snapshot. -/
def History.restart (h : History σ) (snapshotIndex : Nat) : History σ :=
  { h with life := [], since := [], base := snapshotIndex, covered := snapshotIndex }

/-- What a stretch adds to the history. -/
def History.after (h : History σ) (n : RaftNode σ) : Stretch → History σ
  | .becomeCandidate => { h with stood := h.stood ++ [n.log.currentTerm + 1] }
  | .applyLoop (e :: _) =>
      { h with life := h.life ++ [⟨e, n.sm⟩], since := h.since ++ [⟨e, n.sm⟩] }
  | .acceptSnapshot req =>
      if req.lastIncludedIndex ≤ n.log.snapshotIndex then h
      else { h with since := [], base := req.lastIncludedIndex,
                    covered := max h.covered req.lastIncludedIndex }
  | .proposeChange change seen =>
      if n.role ≠ .leader then h
      else { h with changes :=
              h.changes ++ [(n.newEntry (change.apply seen).encode .config, change)] }
  | _ => h

structure Threads (σ : Type) extends Pool (RaftNode σ) Stretch Output, History σ

namespace Threads

/-- The node the threads share. -/
abbrev node (s : Threads σ) : RaftNode σ := s.shared

inductive Action
  | start (entry : Entry)
  /-- thread `i` runs its next stretch -/
  | run (i : Nat)
  /-- the process ends and a new one starts on its directory -/
  | restart
  deriving DecidableEq

/-- Thread `i` runs `m` stretches. -/
def runs (i m : Nat) : List Action := List.replicate m (.run i)

/-- The stretch that an action runs. -/
def running (s : Threads σ) : Action → Option Stretch
  | .run i => s.threads[i]?.bind List.head?
  | _ => none

theorem running_of_getElem? {s : Threads σ} {i : Nat} {k : Stretch} {ks : List Stretch}
    (h : s.threads[i]? = some (k :: ks)) : s.running (.run i) = some k := by
  rw [running, h]
  rfl

variable [StateMachine σ]

/-- A node that is started for the first time. -/
def init (id : NodeId) (snapshotThresholdEntries : Nat) (config : ClusterConfig) : Threads σ where
  shared := .new id snapshotThresholdEntries config .empty 0 []
  threads := []
  out := []
  life := []
  since := []
  base := 0
  covered := 0
  stood := []
  changes := []

/-- Thread `i` runs the stretch `k` and goes on with `ks` after it. -/
def ran (s : Threads σ) (i : Nat) (k : Stretch) (ks : List Stretch) : Threads σ where
  toPool := s.toPool.ran Stretch.run i k ks
  toHistory := s.toHistory.after s.node k

def step (s : Threads σ) : Action → Option (Threads σ)
  | .start entry => some { s with threads := s.threads ++ [[entry.stretch]] }
  | .run i => match s.threads[i]? with
      | some (k :: ks) => some (s.ran i k ks)
      | _ => none
  | .restart =>
      let node := s.node.restart
      some ⟨⟨node, [], s.out⟩, s.toHistory.restart node.log.snapshotIndex⟩

/-- Everything a step can do. -/
theorem step_cases {s s' : Threads σ} {a : Action} (h : s.step a = some s') :
    (∃ entry, a = .start entry ∧ s' = { s with threads := s.threads ++ [[entry.stretch]] }) ∨
    (∃ i k ks, a = .run i ∧ s.threads[i]? = some (k :: ks) ∧ s' = s.ran i k ks) ∨
    (a = .restart ∧ s' = ⟨⟨s.node.restart, [], s.out⟩,
      s.toHistory.restart s.node.restart.log.snapshotIndex⟩) := by
  cases a with
  | start entry => exact .inl ⟨entry, rfl, (Option.some.inj h).symm⟩
  | run i =>
      simp only [step] at h
      split at h
      · next k ks hthread => exact .inr (.inl ⟨i, k, ks, rfl, hthread, (Option.some.inj h).symm⟩)
      · contradiction
  | restart => exact .inr (.inr ⟨rfl, (Option.some.inj h).symm⟩)

end Threads

/-- Node 1 of three voters, from which the concrete runs start. -/
def firstOfThree : Threads KvStore := .init 1 1000 ⟨[1, 2, 3], []⟩

end KvRaft
