import KvRaft.KvStore
import KvRaft.PersistentLog
import KvRaft.Quorum
import KvRaft.Rpc

/-!
# KvRaft.RaftNode

One node of the consensus group, after `raft/raft_node.cpp`.  A handler, a
reply callback, an election or a proposal is one function from the node before
to the node after, with the calls it hands to the transport; the clocks that
start an election or a heartbeat are left to the caller.

Next to the fields of the source a node keeps what its callbacks share
(`votes`), how often its process was started (`incarnation`), and what was
applied and to which state (`applied`), which no code reads.
-/

namespace KvRaft

inductive Role
  | follower
  | candidate
  | leader
  deriving DecidableEq

structure ProposeResult where
  isLeader : Bool
  leaderHint : NodeId
  index : Nat
  term : Nat
  deriving DecidableEq

/-- An entry that was applied and the state machine just before. -/
structure Applied (σ : Type) where
  entry : LogEntry
  before : σ

/-- What the application hands to `waitApplied`. -/
def Applied.result {σ : Type} [StateMachine σ] (o : Applied σ) : Bytes :=
  match o.entry.type with
  | .command => (StateMachine.apply o.before o.entry.data o.entry.index).2
  | _ => []

structure RaftNode (σ : Type) where
  id : NodeId
  snapshotThresholdEntries : Nat
  /-- the configuration the process is started with -/
  initialConfig : ClusterConfig
  sm : σ
  log : PersistentLog
  role : Role
  config : ClusterConfig
  leaderId : NodeId
  commitIndex : Nat
  lastApplied : Nat
  nextIndex : AList fun _ : NodeId => Nat
  matchIndex : AList fun _ : NodeId => Nat
  pendingResults : AList fun _ : Nat => Bytes
  /-- the vote counters of the node's candidacies, by their term -/
  votes : Nat → Nat
  /-- how often the process was restarted -/
  incarnation : Nat
  /-- what `applyCommittedEntries` has applied, over all lives of the node -/
  applied : List (Applied σ)

namespace RaftNode

variable {σ : Type} [StateMachine σ]

/-! ## Start and restart -/

/-- The constructor, on the files of `dir`. -/
def new (id : NodeId) (snapshotThresholdEntries : Nat) (initialConfig : ClusterConfig)
    (dir : Directory) (incarnation : Nat) (applied : List (Applied σ)) : RaftNode σ :=
  let log := PersistentLog.load dir
  { id, snapshotThresholdEntries, initialConfig, log, incarnation, applied
    sm := match log.loadSnapshotBytes with
      | some snap => StateMachine.restore StateMachine.fresh snap
      | none => StateMachine.fresh
    role := .follower
    config := initialConfig
    leaderId := 0
    commitIndex := log.snapshotIndex
    lastApplied := log.snapshotIndex
    nextIndex := ∅
    matchIndex := ∅
    pendingResults := ∅
    votes := fun _ => 0 }

/-- The process ends and a new one starts on its directory. -/
def restart (n : RaftNode σ) : RaftNode σ :=
  new n.id n.snapshotThresholdEntries n.initialConfig n.log.dir (n.incarnation + 1) n.applied

/-! ## Applying committed entries -/

/-- The entries from `last + 1` on, at most `fuel` of them; the loop stops
where the log has none. -/
def collect (log : PersistentLog) (last : Nat) : Nat → List LogEntry
  | 0 => []
  | fuel + 1 => match log.entryAt (last + 1) with
      | none => []
      | some e => e :: collect log (last + 1) fuel

/-- The batch `applyCommittedEntries` claims under the lock. -/
def toApply (n : RaftNode σ) : List LogEntry :=
  collect n.log n.lastApplied (n.commitIndex - n.lastApplied)

/-- The node after the claim. -/
def claim (n : RaftNode σ) : RaftNode σ :=
  { n with lastApplied := n.lastApplied + n.toApply.length }

/-- A voter the leader has no progress for starts at the end of its log. -/
def trackVoter (last : Nat) (n : RaftNode σ) (v : NodeId) : RaftNode σ :=
  match n.nextIndex.lookup v with
  | some _ => n
  | none =>
      { n with nextIndex := n.nextIndex.insert v (last + 1), matchIndex := n.matchIndex.insert v 0 }

/-- Only `addServer` and `removeServer` create configuration entries, so their
data decodes; the source would end the process where it does not. -/
def applyConfigEntry (n : RaftNode σ) (e : LogEntry) : RaftNode σ :=
  match (ClusterConfig.decode.run' e.data : Except String ClusterConfig) with
  | .error _ => n
  | .ok config =>
      let n := { n with config }
      if n.role = .leader then config.voters.foldl (trackVoter n.log.lastIndex) n else n

/-- The state machine or the configuration takes an entry. -/
def applyOne (n : RaftNode σ) (e : LogEntry) : RaftNode σ × Bytes :=
  let applied := n.applied ++ [⟨e, n.sm⟩]
  match e.type with
  | .command =>
      let (sm, result) := StateMachine.apply n.sm e.data e.index
      ({ n with sm, applied }, result)
  | .config => ({ n.applyConfigEntry e with applied }, [])
  | _ => ({ n with applied }, [])

def storeResult (n : RaftNode σ) (index : Nat) (result : Bytes) : RaftNode σ :=
  { n with pendingResults := n.pendingResults.insert index result }

/-- One round of the loop over the claimed batch. -/
def applyEntry (n : RaftNode σ) (e : LogEntry) : RaftNode σ :=
  let (n, result) := n.applyOne e
  n.storeResult e.index result

def applyCommittedEntries (n : RaftNode σ) : RaftNode σ := n.toApply.foldl applyEntry n.claim

/-! ## Roles -/

def becomeFollower (n : RaftNode σ) (term : Nat) (leader : NodeId) : RaftNode σ :=
  { n with
    -- the vote is cleared only with a new term
    log := if term > n.log.currentTerm then n.log.setHardState term 0 else n.log
    role := .follower
    leaderId := leader }

/-- The match indices of the leader and its peers, largest first. -/
def sortedMatches (n : RaftNode σ) : List Nat :=
  (n.log.lastIndex :: (n.matchIndex.entries.filter (·.1 ≠ n.id)).map (·.2)).insertionSort (· ≥ ·)

def tryAdvanceCommitIndex (n : RaftNode σ) : RaftNode σ :=
  if n.role ≠ .leader then n
  else match n.sortedMatches[n.config.voters.length / 2]? with
    | none => n
    | some candidate =>
        if candidate > n.commitIndex ∧ n.log.termAt candidate = n.log.currentTerm then
          { n with commitIndex := candidate }.applyCommittedEntries
        else n

/-- The entry a leader creates for a proposal. -/
def newEntry (n : RaftNode σ) (data : Bytes) (type : EntryType) : LogEntry :=
  ⟨n.log.currentTerm, n.log.lastIndex + 1, type, data⟩

def propose (n : RaftNode σ) (commandBytes : Bytes) (type : EntryType) :
    RaftNode σ × ProposeResult :=
  if n.role ≠ .leader then (n, ⟨false, n.leaderId, 0, 0⟩)
  else
    let e := n.newEntry commandBytes type
    ({ n with log := n.log.appendAndSync [e] }.tryAdvanceCommitIndex,
      ⟨true, n.id, e.index, e.term⟩)

/-! ## Replication -/

/-- `sendAppendEntriesTo` takes at most this many entries at once. -/
def maxBatch : Nat := 200

def appendEntriesReq (n : RaftNode σ) (peer : NodeId) : AppendEntriesReq :=
  let prevIdx := (n.nextIndex.lookup peer).getD 1 - 1
  { term := n.log.currentTerm
    leaderId := n.id
    prevLogIndex := prevIdx
    prevLogTerm := n.log.termAt prevIdx
    entries := n.log.entriesAfter prevIdx maxBatch
    leaderCommit := n.commitIndex }

def installSnapshotReq (n : RaftNode σ) : InstallSnapshotReq where
  term := n.log.currentTerm
  leaderId := n.id
  lastIncludedIndex := n.log.snapshotIndex
  lastIncludedTerm := n.log.snapshotTerm
  data := n.log.loadSnapshotBytes.getD (StateMachine.snapshot n.sm)

/-- What the leader sends to one peer: the snapshot if the peer needs entries
that were compacted away, else the entries from its `nextIndex` on. -/
def replicateTo (n : RaftNode σ) (peer : NodeId) : Call where
  sender := n.id
  target := peer
  incarnation := n.incarnation
  rpc :=
    if (n.nextIndex.lookup peer).getD 1 ≤ n.log.snapshotIndex then
      .installSnapshot n.installSnapshotReq
    else .appendEntries (n.appendEntriesReq peer)

def broadcastAppendEntries (n : RaftNode σ) : List Call :=
  if n.role ≠ .leader then []
  else (n.config.voters.filter (· ≠ n.id)).map n.replicateTo

/-! ## Elections -/

/-- The leader's state before its first entry. -/
def lead (n : RaftNode σ) : RaftNode σ :=
  { n with
    role := .leader
    leaderId := n.id
    nextIndex := n.config.voters.foldl (fun m v => m.insert v (n.log.lastIndex + 1)) ∅
    matchIndex := n.config.voters.foldl (fun m v => m.insert v 0) ∅ }

def becomeLeader (n : RaftNode σ) : RaftNode σ × List Call :=
  if n.role ≠ .candidate then (n, [])
  else
    -- `propose` has tried to advance once already
    let n := (n.lead.propose [] .noOp).1.tryAdvanceCommitIndex
    (n, n.broadcastAppendEntries)

/-- The candidate's state before it asks for votes. -/
def stand (n : RaftNode σ) : RaftNode σ :=
  { n with
    log := n.log.setHardState (n.log.currentTerm + 1) n.id
    role := .candidate
    leaderId := 0 }

def majority (n : RaftNode σ) : Nat := n.config.voters.length / 2 + 1

def requestVoteReq (n : RaftNode σ) : RequestVoteReq where
  term := n.log.currentTerm
  candidateId := n.id
  lastLogIndex := n.log.lastIndex
  lastLogTerm := n.log.lastTerm

def becomeCandidate (n : RaftNode σ) : RaftNode σ × List Call :=
  let n := n.stand
  -- a node that is not a voter stands all the same, and asks nobody
  if n.config.hasVoter n.id = false ∧ n.config.voters.length > 0 then (n, [])
  else
    let n := { n with votes := Function.update n.votes n.log.currentTerm 1 }
    -- a single voter has won with its own vote
    if 1 ≥ n.majority then n.becomeLeader
    else (n, (n.config.voters.filter (· ≠ n.id)).map fun peer =>
      ⟨n.id, peer, n.incarnation, .requestVote n.requestVoteReq n.majority⟩)

/-! ## RPC handlers -/

/-- The candidate's log is at least as up to date as this node's. -/
def logOk (n : RaftNode σ) (req : RequestVoteReq) : Prop :=
  req.lastLogTerm > n.log.lastTerm ∨
    (req.lastLogTerm = n.log.lastTerm ∧ req.lastLogIndex ≥ n.log.lastIndex)

instance (n : RaftNode σ) (req : RequestVoteReq) : Decidable (n.logOk req) :=
  inferInstanceAs (Decidable (_ ∨ _))

def canVote (n : RaftNode σ) (req : RequestVoteReq) : Prop :=
  n.log.votedFor = 0 ∨ n.log.votedFor = req.candidateId

instance (n : RaftNode σ) (req : RequestVoteReq) : Decidable (n.canVote req) :=
  inferInstanceAs (Decidable (_ ∨ _))

/-- The end of `handleRequestVote`, where the term is settled. -/
def castVote (n : RaftNode σ) (req : RequestVoteReq) : RaftNode σ × RequestVoteResp :=
  if n.canVote req ∧ n.logOk req then
    ({ n with log := n.log.setHardState n.log.currentTerm req.candidateId },
      ⟨n.log.currentTerm, true⟩)
  else (n, ⟨n.log.currentTerm, false⟩)

def handleRequestVote (n : RaftNode σ) (req : RequestVoteReq) : RaftNode σ × RequestVoteResp :=
  if req.term < n.log.currentTerm then (n, ⟨n.log.currentTerm, false⟩)
  else (if req.term > n.log.currentTerm then n.becomeFollower req.term 0 else n).castVote req

/-- The back-off loop: from `ci` down to the first index of the run of term
`t`, not below the snapshot. -/
def conflictStart (log : PersistentLog) (t : Nat) : Nat → Nat
  | 0 => 0
  | ci + 1 =>
      if ci + 1 > log.snapshotIndex + 1 ∧ log.termAt ci = t then conflictStart log t ci else ci + 1

/-- What the consistency check of `handleAppendEntries` answers: `none` if it
passes, else the last three fields of the reply, in the order the source lists
them (`matchIndex`, `conflictIndex`, `conflictTerm`). -/
def consistencyCheck (log : PersistentLog) (req : AppendEntriesReq) : Option (Nat × Nat × Nat) :=
  if req.prevLogIndex > 0 then
    let t := log.termAt req.prevLogIndex
    -- no entry there: the log is too short
    if t = 0 ∧ req.prevLogIndex > log.snapshotIndex then
      some (log.lastIndex + 1, 0, log.lastIndex)
    -- an entry of another term
    else if t ≠ 0 ∧ t ≠ req.prevLogTerm then
      some (conflictStart log t req.prevLogIndex, t, 0)
    else none
  else none

/-- The last index the request covers. -/
def newLast (req : AppendEntriesReq) : Nat :=
  match req.entries.getLast? with
  | none => req.prevLogIndex
  | some e => e.index

/-- An accepted request: the entries replace the log's suffix and the commit
index follows the leader's. -/
def acceptEntries (n : RaftNode σ) (req : AppendEntriesReq) : RaftNode σ :=
  { n with
    -- whatever lies behind the entries is cut off, also if it agrees with them
    log := n.log.appendAndSync req.entries
    commitIndex :=
      if req.leaderCommit > n.commitIndex then min req.leaderCommit (newLast req)
      else n.commitIndex }

def handleAppendEntries (n : RaftNode σ) (req : AppendEntriesReq) :
    RaftNode σ × AppendEntriesResp :=
  if req.term < n.log.currentTerm then (n, ⟨n.log.currentTerm, false, 0, 0, 0⟩)
  else
    let n := n.becomeFollower req.term req.leaderId
    match consistencyCheck n.log req with
    | some (matchIndex, conflictIndex, conflictTerm) =>
        (n, ⟨n.log.currentTerm, false, matchIndex, conflictIndex, conflictTerm⟩)
    | none =>
        let n := (n.acceptEntries req).applyCommittedEntries
        (n, ⟨n.log.currentTerm, true, newLast req, 0, 0⟩)

/-- The node after a snapshot it needs was installed. -/
def acceptSnapshot (n : RaftNode σ) (req : InstallSnapshotReq) : RaftNode σ :=
  { n with
    log := n.log.compactUpTo req.lastIncludedIndex req.lastIncludedTerm req.data
    sm := StateMachine.restore n.sm req.data
    commitIndex := max n.commitIndex req.lastIncludedIndex
    lastApplied := max n.lastApplied req.lastIncludedIndex }

def handleInstallSnapshot (n : RaftNode σ) (req : InstallSnapshotReq) :
    RaftNode σ × InstallSnapshotResp :=
  if req.term < n.log.currentTerm then (n, ⟨n.log.currentTerm⟩)
  else
    let n := n.becomeFollower req.term req.leaderId
    if req.lastIncludedIndex ≤ n.log.snapshotIndex then (n, ⟨n.log.currentTerm⟩)
    else (n.acceptSnapshot req, ⟨n.log.currentTerm⟩)

def handle (n : RaftNode σ) : Rpc → RaftNode σ × Answer
  | .requestVote req majority =>
      let (n, resp) := n.handleRequestVote req
      (n, .requestVote req majority resp)
  | .appendEntries req =>
      let (n, resp) := n.handleAppendEntries req
      (n, .appendEntries req resp)
  | .installSnapshot req =>
      let (n, resp) := n.handleInstallSnapshot req
      (n, .installSnapshot req resp)

/-! ## Reply callbacks -/

def onRequestVoteReply (n : RaftNode σ) (newTerm majority : Nat) (resp : RequestVoteResp) :
    RaftNode σ × List Call :=
  if n.role ≠ .candidate ∨ n.log.currentTerm ≠ newTerm then (n, [])
  else if resp.term > newTerm then (n.becomeFollower resp.term 0, [])
  else if resp.voteGranted then
    -- the counter is shared by the callbacks of one candidacy, and each term has one
    let v := n.votes newTerm + 1
    let n := { n with votes := Function.update n.votes newTerm v }
    if v ≥ majority then n.becomeLeader else (n, [])
  else (n, [])

def onAppendEntriesReply (n : RaftNode σ) (peer : NodeId) (term : Nat)
    (resp : AppendEntriesResp) : RaftNode σ :=
  if resp.term > n.log.currentTerm then n.becomeFollower resp.term 0
  else if n.role ≠ .leader ∨ n.log.currentTerm ≠ term then n
  else if resp.success then
    { n with
      matchIndex := n.matchIndex.insert peer resp.matchIndex
      nextIndex := n.nextIndex.insert peer (resp.matchIndex + 1) }.tryAdvanceCommitIndex
  else
    -- the hint is read from the field of that name, whatever the peer put there
    let newNext := if resp.conflictIndex > 0 then resp.conflictIndex else 1
    { n with nextIndex := n.nextIndex.insert peer (max 1 newNext) }

def onInstallSnapshotReply (n : RaftNode σ) (peer : NodeId) (idx : Nat)
    (resp : InstallSnapshotResp) : RaftNode σ :=
  if resp.term > n.log.currentTerm then n.becomeFollower resp.term 0
  else
    -- neither the role nor the term of the request is looked at
    { n with
      matchIndex := n.matchIndex.insert peer idx
      nextIndex := n.nextIndex.insert peer (idx + 1) }

def callback (n : RaftNode σ) (peer : NodeId) : Answer → RaftNode σ × List Call
  | .requestVote req majority resp => n.onRequestVoteReply req.term majority resp
  | .appendEntries req resp => (n.onAppendEntriesReply peer req.term resp, [])
  | .installSnapshot req resp => (n.onInstallSnapshotReply peer req.lastIncludedIndex resp, [])

/-! ## Membership, snapshots and waiting -/

/-- The configuration `addServer` proposes. -/
def withServer (c : ClusterConfig) (id : NodeId) (address : Bytes) : ClusterConfig where
  voters := if c.hasVoter id then c.voters else c.voters ++ [id]
  addresses :=
    if c.addresses.any (·.1 == id) then
      c.addresses.map fun p => if p.1 = id then (p.1, address) else p
    else c.addresses ++ [(id, address)]

def addServer (n : RaftNode σ) (id : NodeId) (address : Bytes) : RaftNode σ × ProposeResult :=
  n.propose (withServer n.config id address).encode .config

/-- The configuration `removeServer` proposes. -/
def withoutServer (c : ClusterConfig) (id : NodeId) : ClusterConfig :=
  { c with voters := c.voters.filter (· ≠ id) }

def removeServer (n : RaftNode σ) (id : NodeId) : RaftNode σ × ProposeResult :=
  n.propose (withoutServer n.config id).encode .config

def forceSnapshot (n : RaftNode σ) : RaftNode σ :=
  if n.lastApplied ≤ n.log.snapshotIndex then n
  else
    { n with
      log := n.log.compactUpTo n.lastApplied (n.log.termAt n.lastApplied)
        (StateMachine.snapshot n.sm) }

/-- The difference is one of unsigned 64-bit integers. -/
def maybeSnapshot (n : RaftNode σ) : RaftNode σ :=
  if (n.lastApplied + 2 ^ 64 - n.log.snapshotIndex) % 2 ^ 64 ≥ n.snapshotThresholdEntries then
    n.forceSnapshot
  else n

/-- `waitApplied` at the moment it looks: `none` while it has to wait, else the
result it hands out. -/
def waitApplied (n : RaftNode σ) (index : Nat) : Option Bytes :=
  if n.lastApplied ≥ index then some ((n.pendingResults.lookup index).getD []) else none

/-- The index `linearizableReadBarrier` waits for, if it does not refuse. -/
def readTarget (n : RaftNode σ) : Option Nat :=
  if n.role = .leader then some n.commitIndex else none

/-! ## What applying does -/

omit [StateMachine σ] in
theorem mem_collect {log : PersistentLog} {last fuel : Nat} {e : LogEntry}
    (h : e ∈ collect log last fuel) : e ∈ log.entries := by
  induction fuel generalizing last with
  | zero => simp [collect] at h
  | succ fuel ih =>
      rw [collect] at h
      cases he : log.entryAt (last + 1) with
      | none => rw [he] at h; simp at h
      | some x =>
          rw [he] at h
          rcases List.mem_cons.mp h with rfl | h
          · unfold PersistentLog.entryAt at he
            split at he
            · contradiction
            · exact List.mem_of_getElem? he
          · exact ih h

omit [StateMachine σ] in
/-- The claimed batch is the next piece of the full log. -/
theorem collect_eq {log : PersistentLog} {full : List LogEntry} (h : log.Represents full)
    {last : Nat} (hlast : log.snapshotIndex ≤ last) (fuel : Nat) :
    collect log last fuel = (full.drop last).take fuel := by
  induction fuel generalizing last with
  | zero => simp [collect]
  | succ fuel ih =>
      rw [collect, h.entryAt (by omega), Nat.add_sub_cancel]
      cases he : full[last]? with
      | none => rw [List.drop_eq_nil_of_le (List.getElem?_eq_none_iff.mp he)]; rfl
      | some e =>
          obtain ⟨hlt, rfl⟩ := List.getElem?_eq_some_iff.mp he
          rw [List.drop_eq_getElem_cons hlt, List.take_succ_cons, ← ih (by omega)]

/-- A table that is filled for some voters holds these and what it held before. -/
theorem mem_foldl_insert {voters : List NodeId} {m : AList fun _ : NodeId => Nat} {i : Nat}
    {v : NodeId} : v ∈ voters.foldl (fun m v => m.insert v i) m ↔ v ∈ m ∨ v ∈ voters := by
  induction voters generalizing m with
  | nil => simp
  | cons x voters ih =>
      rw [List.foldl_cons, ih, AList.mem_insert, List.mem_cons, or_assoc, or_left_comm]

omit [StateMachine σ] in
theorem foldl_trackVoter (last : Nat) (voters : List NodeId) (n : RaftNode σ) :
    ∃ nextIndex matchIndex,
      voters.foldl (trackVoter last) n = { n with nextIndex, matchIndex } := by
  induction voters generalizing n with
  | nil => exact ⟨n.nextIndex, n.matchIndex, rfl⟩
  | cons v voters ih =>
      obtain ⟨ni, mi, hrest⟩ := ih (n.trackVoter last v)
      have hone : ∃ nextIndex matchIndex, n.trackVoter last v =
          { n with nextIndex, matchIndex } := by
        unfold trackVoter
        split <;> exact ⟨_, _, rfl⟩
      obtain ⟨ni', mi', hstep⟩ := hone
      exact ⟨ni, mi, by rw [List.foldl_cons, hrest, hstep]⟩

omit [StateMachine σ] in
theorem applyConfigEntry_eq (n : RaftNode σ) (e : LogEntry) :
    ∃ config nextIndex matchIndex,
      n.applyConfigEntry e = { n with config, nextIndex, matchIndex } := by
  unfold applyConfigEntry
  split
  · exact ⟨n.config, n.nextIndex, n.matchIndex, rfl⟩
  · next config _ =>
    simp only
    split
    · obtain ⟨ni, mi, h⟩ := foldl_trackVoter n.log.lastIndex config.voters { n with config }
      exact ⟨config, ni, mi, h⟩
    · exact ⟨config, n.nextIndex, n.matchIndex, rfl⟩

theorem applyOne_eq (n : RaftNode σ) (e : LogEntry) :
    ∃ sm config nextIndex matchIndex, n.applyOne e =
      ({ n with sm, config, nextIndex, matchIndex, applied := n.applied ++ [⟨e, n.sm⟩] },
        Applied.result ⟨e, n.sm⟩) := by
  unfold applyOne Applied.result
  cases e.type with
  | config =>
      obtain ⟨config, ni, mi, hcfg⟩ := n.applyConfigEntry_eq e
      exact ⟨_, config, ni, mi, by rw [hcfg]⟩
  | _ => exact ⟨_, _, _, _, rfl⟩

theorem applyEntry_eq (n : RaftNode σ) (e : LogEntry) :
    ∃ sm config nextIndex matchIndex, n.applyEntry e =
      { n with sm, config, nextIndex, matchIndex,
               pendingResults := n.pendingResults.insert e.index (Applied.result ⟨e, n.sm⟩)
               applied := n.applied ++ [⟨e, n.sm⟩] } := by
  obtain ⟨sm, config, ni, mi, hone⟩ := n.applyOne_eq e
  exact ⟨sm, config, ni, mi, by rw [applyEntry, hone]; rfl⟩

/-- Applying a batch records it with its results and leaves the log, the role
and the commit index alone. -/
theorem foldl_applyEntry (batch : List LogEntry) (n : RaftNode σ) :
    ∃ sm config nextIndex matchIndex pendingResults records,
      batch.foldl applyEntry n =
        { n with
          sm, config, nextIndex, matchIndex, pendingResults, applied := n.applied ++ records } ∧
      records.map Applied.entry = batch ∧
      (∀ i, i ∉ batch.map LogEntry.index →
        pendingResults.lookup i = n.pendingResults.lookup i) ∧
      ((batch.map LogEntry.index).Nodup →
        ∀ o ∈ records, pendingResults.lookup o.entry.index = some o.result) := by
  -- induction on the batch: the first record is made on the state as it is now
  induction batch generalizing n with
  | nil =>
      exact ⟨_, _, _, _, n.pendingResults, [], by rw [List.append_nil]; rfl, rfl, fun _ _ => rfl,
        by simp⟩
  | cons e batch ih =>
      obtain ⟨_, _, _, _, hstep⟩ := n.applyEntry_eq e
      obtain ⟨sm, config, ni, mi, pr, records, hrest, hrecords, hkept, hresults⟩ :=
        ih (n.applyEntry e)
      refine ⟨sm, config, ni, mi, pr, ⟨e, n.sm⟩ :: records, ?_, by rw [List.map_cons, hrecords],
        fun i hi => ?_, fun hnodup o ho => ?_⟩
      · rw [List.foldl_cons, hrest, hstep]
        simp only [List.append_assoc, List.singleton_append]
      · -- an index that is not in the batch keeps its result
        rw [List.map_cons, List.mem_cons, not_or] at hi
        rw [hkept i hi.2, hstep]
        exact AList.lookup_insert_ne hi.1
      · rw [List.map_cons, List.nodup_cons] at hnodup
        -- the first entry's result is not overwritten, because its index does not come again
        rcases List.mem_cons.mp ho with rfl | ho
        · rw [hkept _ hnodup.1, hstep]
          exact AList.lookup_insert _
        · exact hresults hnodup.2 o ho

/-- A batch without configuration entries leaves the configuration and the
leader's tables alone, too. -/
theorem foldl_applyEntry_plain {batch : List LogEntry} (h : ∀ e ∈ batch, e.type ≠ .config)
    (n : RaftNode σ) : ∃ sm pendingResults records,
      records.map Applied.entry = batch ∧ batch.foldl applyEntry n =
        { n with sm, pendingResults, applied := n.applied ++ records } := by
  induction batch generalizing n with
  | nil => exact ⟨n.sm, n.pendingResults, [], rfl, by simp⟩
  | cons e batch ih =>
      have hone : ∃ sm pendingResults, n.applyEntry e =
          { n with sm, pendingResults, applied := n.applied ++ [⟨e, n.sm⟩] } := by
        have he := h e List.mem_cons_self
        unfold applyEntry applyOne
        cases htype : e.type with
        | config => exact absurd htype he
        | _ => exact ⟨_, _, rfl⟩
      obtain ⟨_, _, hstep⟩ := hone
      obtain ⟨sm, pr, records, hrecords, hrest⟩ :=
        ih (fun x hx => h x (List.mem_cons_of_mem e hx)) (n.applyEntry e)
      refine ⟨sm, pr, ⟨e, n.sm⟩ :: records, by rw [List.map_cons, hrecords], ?_⟩
      rw [List.foldl_cons, hrest, hstep]
      simp only [List.append_assoc, List.singleton_append]

/-! ## The commit candidate -/

omit [StateMachine σ] in
/-- The value at the middle of the sorted match indices is reached by a
majority of the voters: the leader itself and peers it has a match index for. -/
theorem majority_of_sortedMatches {n : RaftNode σ} {voters : List NodeId} {i : Nat}
    (hself : n.id ∈ voters)
    (hkeys : ∀ v j, n.matchIndex.lookup v = some j → v ≠ n.id → v ∈ voters)
    (hi : n.sortedMatches[voters.length / 2]? = some i) :
    ∃ q, IsMajority voters q ∧ ∀ v ∈ q, v = n.id ∧ i ≤ n.log.lastIndex ∨
      ∃ j, n.matchIndex.lookup v = some j ∧ v ≠ n.id ∧ i ≤ j := by
  -- more than half of the sorted values reach the index
  have hcount := (le_insertionSort_iff_lt_countP hi i).mp (Nat.le_refl i)
  rw [List.countP_cons, List.countP_map, List.countP_filter, List.countP_eq_length_filter] at hcount
  set reached := n.matchIndex.entries.filter
    (fun p =>
      ((fun y => decide (i ≤ y)) ∘ fun p : (_ : NodeId) × Nat => p.2) p && decide (p.1 ≠ n.id))
    with hreached
  -- they belong to voters other than the node
  have hmem : ∀ v ∈ reached.map (·.1), ∃ j, n.matchIndex.lookup v = some j ∧ v ≠ n.id ∧ i ≤ j := by
    intro v hv
    obtain ⟨p, hp, rfl⟩ := List.mem_map.mp hv
    obtain ⟨hp, hcond⟩ := List.mem_filter.mp hp
    simp only [Function.comp, Bool.and_eq_true, decide_eq_true_eq] at hcond
    exact ⟨p.2, List.mem_dlookup n.matchIndex.nodupKeys hp, hcond.2, hcond.1⟩
  have hnodup : (reached.map (·.1)).Nodup := n.matchIndex.nodupKeys.sublist List.filter_sublist
  have hsub : ∀ v ∈ reached.map (·.1), v ∈ voters := fun v hv => by
    obtain ⟨j, hj, hne, -⟩ := hmem v hv
    exact hkeys v j hj hne
  -- the node itself counts if its log reaches the index
  by_cases hle : i ≤ n.log.lastIndex
  · refine ⟨n.id :: reached.map (·.1), ⟨List.nodup_cons.mpr ⟨fun h => ?_, hnodup⟩, ?_, ?_⟩, ?_⟩
    · obtain ⟨_, -, hne, -⟩ := hmem _ h
      exact hne rfl
    · exact List.forall_mem_cons.mpr ⟨hself, hsub⟩
    · rw [if_pos (decide_eq_true hle)] at hcount
      rw [List.length_cons, List.length_map]
      omega
    · exact List.forall_mem_cons.mpr ⟨.inl ⟨rfl, hle⟩, fun v hv => .inr (hmem v hv)⟩
  · refine ⟨reached.map (·.1), ⟨hnodup, hsub, ?_⟩, fun v hv => .inr (hmem v hv)⟩
    rw [if_neg (by simpa using hle)] at hcount
    rw [List.length_map]
    omega

end RaftNode

end KvRaft
