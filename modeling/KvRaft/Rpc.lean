import KvRaft.Types

/-!
# KvRaft.Rpc

The messages of `raft/rpc_messages.h` with their binary form, and the calls and
replies a `Transport` carries.  A call keeps, next to its request, what the reply callback has
captured: the majority the candidate needs, the peer, and the life of the
process it belongs to, since a callback dies with its process.
-/

namespace KvRaft

open ClusterConfig (getNodeId decodes_nodeId)

/-! ## Messages -/

structure RequestVoteReq where
  term : Nat
  candidateId : NodeId
  lastLogIndex : Nat
  lastLogTerm : Nat
  deriving DecidableEq

namespace RequestVoteReq

def encode (req : RequestVoteReq) : Bytes :=
  putU64 req.term ++ (putU64 req.candidateId ++ (putU64 req.lastLogIndex ++
    putU64 req.lastLogTerm))

def decode : Get RequestVoteReq := do
  let term ← getU64
  let candidateId ← getNodeId
  let lastLogIndex ← getU64
  let lastLogTerm ← getU64
  return ⟨term, candidateId, lastLogIndex, lastLogTerm⟩

/-- The fields fit the source's integer types. -/
structure Fits (req : RequestVoteReq) : Prop where
  term : req.term < 2 ^ 64
  candidateId : req.candidateId < 2 ^ 32
  lastLogIndex : req.lastLogIndex < 2 ^ 64
  lastLogTerm : req.lastLogTerm < 2 ^ 64

theorem decodes : RoundTrips Fits encode decode := fun _ h =>
  (Decodes.u64 h.term).bind <| (decodes_nodeId h.candidateId).bind <|
    (Decodes.u64 h.lastLogIndex).bind <| (Decodes.u64 h.lastLogTerm).map _

end RequestVoteReq

structure RequestVoteResp where
  term : Nat
  voteGranted : Bool
  deriving DecidableEq

namespace RequestVoteResp

def encode (resp : RequestVoteResp) : Bytes := putU64 resp.term ++ putBool resp.voteGranted

def decode : Get RequestVoteResp := do
  let term ← getU64
  let voteGranted ← getBool
  return ⟨term, voteGranted⟩

structure Fits (resp : RequestVoteResp) : Prop where
  term : resp.term < 2 ^ 64

theorem decodes : RoundTrips Fits encode decode := fun resp h =>
  (Decodes.u64 h.term).bind <| (Decodes.bool resp.voteGranted).map _

end RequestVoteResp

structure AppendEntriesReq where
  term : Nat
  leaderId : NodeId
  prevLogIndex : Nat
  prevLogTerm : Nat
  entries : List LogEntry
  leaderCommit : Nat
  deriving DecidableEq

namespace AppendEntriesReq

def encode (req : AppendEntriesReq) : Bytes :=
  putU64 req.term ++ (putU64 req.leaderId ++ (putU64 req.prevLogIndex ++ (putU64 req.prevLogTerm ++
    (putU32 req.entries.length ++ (req.entries.flatMap LogEntry.encode ++
      putU64 req.leaderCommit)))))

def decode : Get AppendEntriesReq := do
  let term ← getU64
  let leaderId ← getNodeId
  let prevLogIndex ← getU64
  let prevLogTerm ← getU64
  let n ← getU32
  let entries ← getMany LogEntry.decode n
  let leaderCommit ← getU64
  return ⟨term, leaderId, prevLogIndex, prevLogTerm, entries, leaderCommit⟩

/-- The fields fit the source's integer types, and the number of entries has
32 bits. -/
structure Fits (req : AppendEntriesReq) : Prop where
  term : req.term < 2 ^ 64
  leaderId : req.leaderId < 2 ^ 32
  prevLogIndex : req.prevLogIndex < 2 ^ 64
  prevLogTerm : req.prevLogTerm < 2 ^ 64
  entries : ∀ e ∈ req.entries, e.Fits
  entries_length : req.entries.length < 2 ^ 32
  leaderCommit : req.leaderCommit < 2 ^ 64

theorem decodes : RoundTrips Fits encode decode := fun _ h =>
  (Decodes.u64 h.term).bind <| (decodes_nodeId h.leaderId).bind <|
    (Decodes.u64 h.prevLogIndex).bind <| (Decodes.u64 h.prevLogTerm).bind <|
      (Decodes.u32 h.entries_length).bind <|
        (Decodes.many _ _ fun e he => LogEntry.decodes (h.entries e he)).bind <|
          (Decodes.u64 h.leaderCommit).map _

end AppendEntriesReq

structure AppendEntriesResp where
  term : Nat
  success : Bool
  matchIndex : Nat
  conflictIndex : Nat
  conflictTerm : Nat
  deriving DecidableEq

namespace AppendEntriesResp

def encode (resp : AppendEntriesResp) : Bytes :=
  putU64 resp.term ++ (putBool resp.success ++ (putU64 resp.matchIndex ++
    (putU64 resp.conflictIndex ++ putU64 resp.conflictTerm)))

def decode : Get AppendEntriesResp := do
  let term ← getU64
  let success ← getBool
  let matchIndex ← getU64
  let conflictIndex ← getU64
  let conflictTerm ← getU64
  return ⟨term, success, matchIndex, conflictIndex, conflictTerm⟩

structure Fits (resp : AppendEntriesResp) : Prop where
  term : resp.term < 2 ^ 64
  matchIndex : resp.matchIndex < 2 ^ 64
  conflictIndex : resp.conflictIndex < 2 ^ 64
  conflictTerm : resp.conflictTerm < 2 ^ 64

theorem decodes : RoundTrips Fits encode decode := fun resp h =>
  (Decodes.u64 h.term).bind <| (Decodes.bool resp.success).bind <|
    (Decodes.u64 h.matchIndex).bind <| (Decodes.u64 h.conflictIndex).bind <|
      (Decodes.u64 h.conflictTerm).map _

end AppendEntriesResp

structure InstallSnapshotReq where
  term : Nat
  leaderId : NodeId
  lastIncludedIndex : Nat
  lastIncludedTerm : Nat
  data : Bytes
  deriving DecidableEq

namespace InstallSnapshotReq

def encode (req : InstallSnapshotReq) : Bytes :=
  putU64 req.term ++ (putU64 req.leaderId ++ (putU64 req.lastIncludedIndex ++
    (putU64 req.lastIncludedTerm ++ putBytes req.data)))

def decode : Get InstallSnapshotReq := do
  let term ← getU64
  let leaderId ← getNodeId
  let lastIncludedIndex ← getU64
  let lastIncludedTerm ← getU64
  let data ← getBytes
  return ⟨term, leaderId, lastIncludedIndex, lastIncludedTerm, data⟩

structure Fits (req : InstallSnapshotReq) : Prop where
  term : req.term < 2 ^ 64
  leaderId : req.leaderId < 2 ^ 32
  lastIncludedIndex : req.lastIncludedIndex < 2 ^ 64
  lastIncludedTerm : req.lastIncludedTerm < 2 ^ 64
  data : req.data.length < 2 ^ 32

theorem decodes : RoundTrips Fits encode decode := fun _ h =>
  (Decodes.u64 h.term).bind <| (decodes_nodeId h.leaderId).bind <|
    (Decodes.u64 h.lastIncludedIndex).bind <| (Decodes.u64 h.lastIncludedTerm).bind <|
      (Decodes.bytes h.data).map _

end InstallSnapshotReq

structure InstallSnapshotResp where
  term : Nat
  deriving DecidableEq

namespace InstallSnapshotResp

def encode (resp : InstallSnapshotResp) : Bytes := putU64 resp.term

def decode : Get InstallSnapshotResp := do
  let term ← getU64
  return ⟨term⟩

structure Fits (resp : InstallSnapshotResp) : Prop where
  term : resp.term < 2 ^ 64

theorem decodes : RoundTrips Fits encode decode := fun _ h => (Decodes.u64 h.term).map _

end InstallSnapshotResp

/-! ## Calls and replies -/

/-- A request with what its callback has captured. -/
inductive Rpc
  | requestVote (req : RequestVoteReq) (majority : Nat)
  | appendEntries (req : AppendEntriesReq)
  | installSnapshot (req : InstallSnapshotReq)
  deriving DecidableEq

/-- A request with its response. -/
inductive Answer
  | requestVote (req : RequestVoteReq) (majority : Nat) (resp : RequestVoteResp)
  | appendEntries (req : AppendEntriesReq) (resp : AppendEntriesResp)
  | installSnapshot (req : InstallSnapshotReq) (resp : InstallSnapshotResp)
  deriving DecidableEq

/-- A request on its way to `target`. -/
structure Call where
  sender : NodeId
  target : NodeId
  /-- the sender's life the callback belongs to -/
  incarnation : Nat
  rpc : Rpc
  deriving DecidableEq

/-- A response on its way back to `sender`. -/
structure Reply where
  sender : NodeId
  target : NodeId
  incarnation : Nat
  answer : Answer
  deriving DecidableEq

end KvRaft
