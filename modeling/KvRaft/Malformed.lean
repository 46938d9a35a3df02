import KvRaft.Frame
import KvRaft.KvServer
import KvRaft.TcpTransport

/-!
# KvRaft.Malformed

What becomes of bytes that do not decode.  A `Reader` throws, and neither
`workerLoop` nor `connLoop` catches anything: an exception that leaves `dispatch`
or a handler leaves the function of its thread and ends the process.

`Throwing` has the handlers once more, with the exceptions of what they decode:
the request itself, the snapshot that a follower restores, and the commands and
configurations that a node applies.  Where nothing is thrown they are the handlers
of `RaftNode` (`handleAppendEntries_eq` and the like).

* `contained_iff` — a frame is answered, or its connection closed, exactly if
  everything that is decoded on its way decodes;
* `malformed_terminates` — an empty request ends the server, and so does a request
  of a peer with a bad body, snapshot or command.
-/

namespace KvRaft

/-! ## Exceptions -/

section

variable {ε α β : Type}

@[simp] theorem isOk_ok (a : α) : (Except.ok a : Except ε α).isOk = true := rfl

@[simp] theorem isOk_error (e : ε) : (Except.error e : Except ε α).isOk = false := rfl

theorem isOk_iff {x : Except ε α} : x.isOk = true ↔ ∃ a, x = .ok a := by
  cases x <;> simp

@[simp] theorem isOk_pure (a : α) : (pure a : Except ε α).isOk = true := rfl

@[simp] theorem isOk_map (x : Except ε α) (f : α → β) : (x.map f).isOk = x.isOk := by
  cases x <;> rfl

@[simp] theorem isOk_fmap (x : Except ε α) (f : α → β) : (f <$> x).isOk = x.isOk := isOk_map x f

theorem bind_eq_ok {x : Except ε α} {f : α → Except ε β} {b : β} :
    (x >>= f) = .ok b ↔ ∃ a, x = .ok a ∧ f a = .ok b := by
  cases x <;> simp [bind, Except.bind]

theorem isOk_bind {x : Except ε α} {f : α → Except ε β} :
    (x >>= f).isOk = true ↔ ∃ a, x = .ok a ∧ (f a).isOk = true := by
  simp only [isOk_iff, bind_eq_ok]
  constructor
  · rintro ⟨b, a, ha, hb⟩
    exact ⟨a, ha, b, hb⟩
  · rintro ⟨a, ha, b, hb⟩
    exact ⟨b, a, ha, hb⟩

end

/-! ## Handlers that throw -/

/-- What is decoded when the entry is applied: the command of the state machine or
the configuration. -/
def LogEntry.decodeData (e : LogEntry) : Except String Unit :=
  match e.type with
  | .command => (KvCommand.decode e.data).map fun _ => ()
  | .config => (ClusterConfig.decode.run' e.data).map fun _ => ()
  | _ => .ok ()

namespace Throwing

def applyEntry (n : RaftNode KvStore) (e : LogEntry) : Except String (RaftNode KvStore) := do
  e.decodeData
  return n.applyEntry e

def applyCommittedEntries (n : RaftNode KvStore) : Except String (RaftNode KvStore) :=
  n.toApply.foldlM applyEntry n.claim

def tryAdvanceCommitIndex (n : RaftNode KvStore) : Except String (RaftNode KvStore) :=
  if n.role ≠ .leader then return n
  else match n.sortedMatches[n.config.voters.length / 2]? with
    | none => return n
    | some candidate =>
        if candidate > n.commitIndex ∧ n.log.termAt candidate = n.log.currentTerm then
          applyCommittedEntries { n with commitIndex := candidate }
        else return n

def propose (n : RaftNode KvStore) (commandBytes : Bytes) (type : EntryType) :
    Except String (RaftNode KvStore × ProposeResult) :=
  if n.role ≠ .leader then return (n, ⟨false, n.leaderId, 0, 0⟩)
  else do
    let e := n.newEntry commandBytes type
    let n' ← tryAdvanceCommitIndex { n with log := n.log.appendAndSync [e] }
    return (n', ⟨true, n.id, e.index, e.term⟩)

def handleAppendEntries (n : RaftNode KvStore) (req : AppendEntriesReq) :
    Except String (RaftNode KvStore × AppendEntriesResp) :=
  if req.term < n.log.currentTerm then return (n, ⟨n.log.currentTerm, false, 0, 0, 0⟩)
  else
    let n := n.becomeFollower req.term req.leaderId
    match RaftNode.consistencyCheck n.log req with
    | some (matchIndex, conflictIndex, conflictTerm) =>
        return (n, ⟨n.log.currentTerm, false, matchIndex, conflictIndex, conflictTerm⟩)
    | none => do
        let n ← applyCommittedEntries (n.acceptEntries req)
        return (n, ⟨n.log.currentTerm, true, RaftNode.newLast req, 0, 0⟩)

def handleInstallSnapshot (n : RaftNode KvStore) (req : InstallSnapshotReq) :
    Except String (RaftNode KvStore × InstallSnapshotResp) :=
  if req.term < n.log.currentTerm then return (n, ⟨n.log.currentTerm⟩)
  else
    let n := n.becomeFollower req.term req.leaderId
    if req.lastIncludedIndex ≤ n.log.snapshotIndex then return (n, ⟨n.log.currentTerm⟩)
    else do
      let sm ← KvStore.restore req.data
      return ({ n.acceptSnapshot req with sm }, ⟨n.log.currentTerm⟩)

/-- The branches of `connLoop` on the type of a frame; none where the loop ends. -/
def serve (node : RaftNode KvStore) (type : UInt8) (body : Bytes) :
    Except String (Option (RaftNode KvStore × Frame)) :=
  if type = WireType.requestVoteReq.toU8 then do
    let req ← RequestVoteReq.decode.run' body
    let (node, resp) := node.handleRequestVote req
    return some (node, ⟨.requestVoteResp, resp.encode⟩)
  else if type = WireType.appendEntriesReq.toU8 then do
    let req ← AppendEntriesReq.decode.run' body
    let (node, resp) ← handleAppendEntries node req
    return some (node, ⟨.appendEntriesResp, resp.encode⟩)
  else if type = WireType.installSnapshotReq.toU8 then do
    let req ← InstallSnapshotReq.decode.run' body
    let (node, resp) ← handleInstallSnapshot node req
    return some (node, ⟨.installSnapshotResp, resp.encode⟩)
  else return none

/-- One turn of the loop of a connection: the answer to a frame, or none where the
loop ends and closes the connection. -/
def connLoop (p : PeerServer KvStore) (frame : RawFrame) :
    Except String (Option (PeerServer KvStore × Frame)) :=
  if frame.payload.length < 4 then return none
  else do
    let shardId ← getU32.run' (frame.payload.take 4)
    match p.shards.lookup shardId with
    | none => return none
    | some node => do
        let served ← serve node frame.type (frame.payload.drop 4)
        return served.map fun s => (⟨p.shards.insert shardId s.1⟩, s.2)

/-- The operation and the key of a request. -/
def getTarget : Get (UInt8 × Bytes) := do
  let op ← getU8
  let key ← getBytes
  return (op, key)

def dispatch (groups : Bytes → Option (RaftNode KvStore)) (frame : Bytes) :
    Except String (Option (RaftNode KvStore) × KvServer.Dispatched) := do
  let ((op, key), rest) ← getTarget frame
  match groups key with
  | none => return (none, .answered (KvServer.response 2 [] []))
  | some n =>
      if op = 0 then
        match n.readTarget with
        | none => return (some n, .answered (KvServer.response 2 (KvServer.addrOf n) []))
        | some target => return (some n, .reading key target)
      else
        let (cmd, _) ← KvServer.getCommand op key rest
        let (n, proposed) ← propose n cmd.encode .command
        if proposed.isLeader then return (some n, .writing cmd.encode proposed)
        else return (some n, .answered (KvServer.response 2 (KvServer.addrOf n) []))

/-! ## Where nothing is thrown -/

variable {n n' : RaftNode KvStore}

theorem foldlM_applyEntry {es : List LogEntry} (h : es.foldlM applyEntry n = .ok n') :
    n' = es.foldl RaftNode.applyEntry n := by
  induction es generalizing n with
  | nil =>
      cases h
      rfl
  | cons e es ih =>
      rw [List.foldlM_cons] at h
      obtain ⟨m, hm, h⟩ := bind_eq_ok.mp h
      obtain ⟨_, -, hm⟩ := bind_eq_ok.mp hm
      cases hm
      exact ih h

theorem applyCommittedEntries_eq (h : applyCommittedEntries n = .ok n') :
    n' = n.applyCommittedEntries := foldlM_applyEntry h

theorem tryAdvanceCommitIndex_eq (h : tryAdvanceCommitIndex n = .ok n') :
    n' = n.tryAdvanceCommitIndex := by
  unfold tryAdvanceCommitIndex at h
  unfold RaftNode.tryAdvanceCommitIndex
  by_cases hrole : n.role ≠ .leader
  · rw [if_pos hrole] at h ⊢
    cases h
    rfl
  rw [if_neg hrole] at h ⊢
  cases hcandidate : n.sortedMatches[n.config.voters.length / 2]? with
  | none =>
      rw [hcandidate] at h
      cases h
      rfl
  | some candidate =>
      rw [hcandidate] at h
      simp only at h ⊢
      -- the one place where it can go wrong is the batch it applies
      split at h
      · next hcommit => rw [if_pos hcommit, applyCommittedEntries_eq h]
      · next hcommit =>
        rw [if_neg hcommit]
        cases h
        rfl

theorem propose_eq {bytes : Bytes} {type : EntryType} {r : RaftNode KvStore × ProposeResult}
    (h : propose n bytes type = .ok r) : r = n.propose bytes type := by
  unfold propose at h
  unfold RaftNode.propose
  by_cases hrole : n.role ≠ .leader
  · rw [if_pos hrole] at h ⊢
    cases h
    rfl
  · rw [if_neg hrole] at h ⊢
    obtain ⟨m, hm, h⟩ := bind_eq_ok.mp h
    cases h
    rw [tryAdvanceCommitIndex_eq hm]

theorem handleAppendEntries_eq {req : AppendEntriesReq} {r : RaftNode KvStore × AppendEntriesResp}
    (h : handleAppendEntries n req = .ok r) : r = n.handleAppendEntries req := by
  unfold handleAppendEntries at h
  unfold RaftNode.handleAppendEntries
  by_cases hterm : req.term < n.log.currentTerm
  · rw [if_pos hterm] at h ⊢
    cases h
    rfl
  rw [if_neg hterm] at h ⊢
  simp only at h ⊢
  cases hcheck : RaftNode.consistencyCheck (n.becomeFollower req.term req.leaderId).log req with
  | some conflict =>
      rw [hcheck] at h
      cases h
      rfl
  | none =>
      rw [hcheck] at h
      obtain ⟨m, hm, h⟩ := bind_eq_ok.mp h
      cases h
      rw [applyCommittedEntries_eq hm]

theorem handleInstallSnapshot_eq {req : InstallSnapshotReq}
    {r : RaftNode KvStore × InstallSnapshotResp} (h : handleInstallSnapshot n req = .ok r) :
    r = n.handleInstallSnapshot req := by
  unfold handleInstallSnapshot at h
  unfold RaftNode.handleInstallSnapshot
  by_cases hterm : req.term < n.log.currentTerm
  · rw [if_pos hterm] at h ⊢
    cases h
    rfl
  rw [if_neg hterm] at h ⊢
  simp only at h ⊢
  by_cases hold : req.lastIncludedIndex ≤ (n.becomeFollower req.term req.leaderId).log.snapshotIndex
  · rw [if_pos hold] at h ⊢
    cases h
    rfl
  · rw [if_neg hold] at h ⊢
    obtain ⟨sm, hsm, h⟩ := bind_eq_ok.mp h
    cases h
    simp [RaftNode.acceptSnapshot, StateMachine.restore, hsm]

theorem toOption_eq_some {x : Except String α} {a : α} (h : x = .ok a) : x.toOption = some a := by
  rw [h]
  rfl

/-- A frame that is answered is answered as in the model without exceptions. -/
theorem connLoop_eq {p : PeerServer KvStore} {frame : Frame}
    {r : Option (PeerServer KvStore × Frame)} (h : connLoop p frame.raw = .ok r) :
    r = p.connLoop frame := by
  unfold connLoop at h
  simp only [PeerServer.connLoop, guard]
  by_cases hlength : frame.raw.payload.length < 4
  · -- too short for a shard id: the connection is closed
    rw [if_pos hlength] at h
    cases h
    rw [if_neg (Nat.not_le.mpr hlength : ¬ 4 ≤ frame.payload.length)]
    rfl
  rw [if_neg hlength] at h
  obtain ⟨shardId, hid, h⟩ := bind_eq_ok.mp h
  have hid' : (getU32.run' (frame.payload.take 4)).toOption = some shardId := toOption_eq_some hid
  have hlength' : 4 ≤ frame.payload.length := Nat.not_lt.mp hlength
  simp only [hlength', if_true, hid', Option.bind_eq_bind, Option.pure_def, Option.bind_some]
  cases hnode : p.shards.lookup shardId with
  -- nobody serves this shard here
  | none =>
      rw [hnode] at h
      cases h
      rfl
  | some node =>
      rw [hnode] at h
      obtain ⟨served, hserved, h⟩ := bind_eq_ok.mp h
      cases h
      change serve node frame.type.toU8 (frame.payload.drop 4) = .ok served at hserved
      simp only [Option.bind_some]
      -- decoding and handling went well, so they are those of the model that cannot fail
      cases htype : frame.type with
      | requestVoteReq =>
          rw [htype] at hserved
          obtain ⟨req, hreq, h⟩ := bind_eq_ok.mp hserved
          cases h
          simp only [toOption_eq_some hreq, Option.bind_some]
          rfl
      | appendEntriesReq =>
          rw [htype] at hserved
          obtain ⟨req, hreq, h⟩ := bind_eq_ok.mp hserved
          obtain ⟨q, hq, h⟩ := bind_eq_ok.mp h
          cases h
          rw [handleAppendEntries_eq hq]
          simp only [toOption_eq_some hreq, Option.bind_some]
          rfl
      | installSnapshotReq =>
          rw [htype] at hserved
          obtain ⟨req, hreq, h⟩ := bind_eq_ok.mp hserved
          obtain ⟨q, hq, h⟩ := bind_eq_ok.mp h
          cases h
          rw [handleInstallSnapshot_eq hq]
          simp only [toOption_eq_some hreq, Option.bind_some]
          rfl
      -- other types have no answer
      | _ =>
          rw [htype] at hserved
          cases hserved
          rfl

theorem getTarget_eq_ok {frame rest : Bytes} {op : UInt8} {key : Bytes} :
    getTarget frame = .ok ((op, key), rest) ↔
      ∃ r, getU8 frame = .ok (op, r) ∧ getBytes r = .ok (key, rest) := by
  unfold getTarget
  simp only [get_bind_eq_ok]
  constructor
  · rintro ⟨op', r, hop, key', rest', hkey, h⟩
    cases h
    exact ⟨r, hop, hkey⟩
  · rintro ⟨r, hop, hkey⟩
    exact ⟨op, r, hop, key, rest, hkey, rfl⟩

theorem dispatch_eq {groups : Bytes → Option (RaftNode KvStore)} {frame : Bytes}
    {r : Option (RaftNode KvStore) × KvServer.Dispatched} (h : dispatch groups frame = .ok r) :
    KvServer.dispatch groups frame = .ok r := by
  obtain ⟨⟨⟨op, key⟩, rest⟩, htarget, h⟩ := bind_eq_ok.mp h
  obtain ⟨r₁, hop, hkey⟩ := getTarget_eq_ok.mp htarget
  unfold KvServer.dispatch
  rw [get_run'_eq_ok]
  simp only [get_bind_eq_ok]
  simp only at h
  cases hgroup : groups key with
  -- no group for the key: an answer without a node
  | none =>
      rw [hgroup] at h
      cases h
      exact ⟨rest, op, r₁, hop, key, rest, hkey, by rw [hgroup]; rfl⟩
  | some n =>
      rw [hgroup] at h
      simp only at h
      by_cases hread : op = 0
      · rw [if_pos hread] at h
        cases htarget : n.readTarget with
        | none =>
            rw [htarget] at h
            cases h
            refine ⟨rest, op, r₁, hop, key, rest, hkey, ?_⟩
            simp only [hgroup, if_pos hread, htarget]
            rfl
        | some target =>
            rw [htarget] at h
            cases h
            refine ⟨rest, op, r₁, hop, key, rest, hkey, ?_⟩
            simp only [hgroup, if_pos hread, htarget]
            rfl
      · -- a command was decoded and proposed
        rw [if_neg hread] at h
        obtain ⟨⟨cmd, rest'⟩, hcmd, h⟩ := bind_eq_ok.mp h
        obtain ⟨q, hq, h⟩ := bind_eq_ok.mp h
        rw [propose_eq hq] at h
        refine ⟨rest', op, r₁, hop, key, rest, hkey, ?_⟩
        simp only [hgroup, if_neg hread, get_bind_eq_ok]
        refine ⟨cmd, rest', hcmd, ?_⟩
        split at h
        · next hleader =>
          cases h
          exact if_pos hleader ▸ rfl
        · next hleader =>
          cases h
          exact if_neg hleader ▸ rfl

end Throwing

/-! ## What has to decode -/

/-- Applying the entry throws nothing. -/
def LogEntry.Applicable (e : LogEntry) : Prop :=
  (e.type = .command → (KvCommand.decode e.data).isOk = true) ∧
    (e.type = .config →
      (ClusterConfig.decode.run' e.data : Except String ClusterConfig).isOk = true)

namespace RaftNode

/-- The entries that `tryAdvanceCommitIndex` commits and applies. -/
def newlyCommitted (n : RaftNode KvStore) : List LogEntry :=
  if n.role ≠ .leader then []
  else match n.sortedMatches[n.config.voters.length / 2]? with
    | none => []
    | some candidate =>
        if candidate > n.commitIndex ∧ n.log.termAt candidate = n.log.currentTerm then
          { n with commitIndex := candidate }.toApply
        else []

/-- Whatever a proposal commits can be applied. -/
def Proposes (n : RaftNode KvStore) (commandBytes : Bytes) : Prop :=
  n.role = .leader →
    ∀ e ∈ { n with log := n.log.appendAndSync [n.newEntry commandBytes .command] }.newlyCommitted,
      e.Applicable

/-- Whatever the node applies if it accepts the request can be applied. -/
def Accepts (n : RaftNode KvStore) (req : AppendEntriesReq) : Prop :=
  let n' := n.becomeFollower req.term req.leaderId
  n.log.currentTerm ≤ req.term → consistencyCheck n'.log req = none →
    ∀ e ∈ (n'.acceptEntries req).toApply, e.Applicable

/-- The snapshot can be restored if the node installs it. -/
def Installs (n : RaftNode KvStore) (req : InstallSnapshotReq) : Prop :=
  n.log.currentTerm ≤ req.term → n.log.snapshotIndex < req.lastIncludedIndex →
    (KvStore.restore req.data).isOk = true

end RaftNode

/-- The operation and the key decode, and if the request is a write to a shard that is
here, so do its other fields and what its proposal commits. -/
def KvServer.WellFormed (groups : Bytes → Option (RaftNode KvStore)) (frame : Bytes) : Prop :=
  ∃ op key rest, Throwing.getTarget frame = .ok ((op, key), rest) ∧
    ∀ n ∈ groups key, op ≠ 0 →
      ∃ cmd rest', KvServer.getCommand op key rest = .ok (cmd, rest') ∧ n.Proposes cmd.encode

/-- A frame for a shard that is here, of the type of a request, has the body of one, and
what the node applies or restores for it decodes. -/
def PeerServer.WellFormed (p : PeerServer KvStore) (frame : RawFrame) : Prop :=
  4 ≤ frame.payload.length → ∀ node ∈ p.shards.lookup (ofLE (frame.payload.take 4)),
    (frame.type = WireType.requestVoteReq.toU8 →
      ∃ req, RequestVoteReq.decode.run' (frame.payload.drop 4) = .ok req) ∧
    (frame.type = WireType.appendEntriesReq.toU8 →
      ∃ req, AppendEntriesReq.decode.run' (frame.payload.drop 4) = .ok req ∧ node.Accepts req) ∧
    (frame.type = WireType.installSnapshotReq.toU8 →
      ∃ req, InstallSnapshotReq.decode.run' (frame.payload.drop 4) = .ok req ∧ node.Installs req)

namespace Throwing

theorem decodeData_isOk (e : LogEntry) : e.decodeData.isOk = true ↔ e.Applicable := by
  unfold LogEntry.decodeData LogEntry.Applicable
  cases e.type with
  | command => simp
  | config => simp
  | noOp => simp
  | other => simp

/-- Whether an entry can be applied does not depend on the node. -/
theorem foldlM_applyEntry_isOk (n : RaftNode KvStore) (es : List LogEntry) :
    (es.foldlM applyEntry n).isOk = true ↔ ∀ e ∈ es, e.Applicable := by
  induction es generalizing n with
  | nil => simp
  | cons e es ih =>
      rw [List.foldlM_cons, isOk_bind, List.forall_mem_cons, ← decodeData_isOk, isOk_iff]
      constructor
      · rintro ⟨m, hm, hrest⟩
        obtain ⟨u, hu, -⟩ := bind_eq_ok.mp hm
        exact ⟨⟨u, hu⟩, (ih m).mp hrest⟩
      · rintro ⟨⟨u, hu⟩, hrest⟩
        exact ⟨n.applyEntry e, bind_eq_ok.mpr ⟨u, hu, rfl⟩, (ih _).mpr hrest⟩

theorem applyCommittedEntries_isOk (n : RaftNode KvStore) :
    (applyCommittedEntries n).isOk = true ↔ ∀ e ∈ n.toApply, e.Applicable :=
  foldlM_applyEntry_isOk n.claim n.toApply

theorem tryAdvanceCommitIndex_isOk (n : RaftNode KvStore) :
    (tryAdvanceCommitIndex n).isOk = true ↔ ∀ e ∈ n.newlyCommitted, e.Applicable := by
  unfold tryAdvanceCommitIndex RaftNode.newlyCommitted
  by_cases hrole : n.role ≠ .leader
  · rw [if_pos hrole, if_pos hrole]
    simp
  rw [if_neg hrole, if_neg hrole]
  cases n.sortedMatches[n.config.voters.length / 2]? with
  | none => simp
  | some candidate =>
      simp only
      split
      · exact applyCommittedEntries_isOk _
      · simp

theorem propose_isOk (n : RaftNode KvStore) (bytes : Bytes) :
    (propose n bytes .command).isOk = true ↔ n.Proposes bytes := by
  unfold propose RaftNode.Proposes
  by_cases hrole : n.role = .leader
  · rw [if_neg (not_not.mpr hrole), isOk_bind, ← tryAdvanceCommitIndex_isOk, isOk_iff]
    simp [hrole]
  · rw [if_pos hrole]
    simp [hrole]

theorem handleAppendEntries_isOk (n : RaftNode KvStore) (req : AppendEntriesReq) :
    (handleAppendEntries n req).isOk = true ↔ n.Accepts req := by
  unfold handleAppendEntries RaftNode.Accepts
  by_cases hterm : req.term < n.log.currentTerm
  · rw [if_pos hterm]
    simp [Nat.not_le.mpr hterm]
  rw [if_neg hterm]
  simp only [Nat.not_lt.mp hterm, true_imp_iff]
  cases RaftNode.consistencyCheck (n.becomeFollower req.term req.leaderId).log req with
  | some conflict => simp
  | none =>
      simp only [true_imp_iff]
      rw [isOk_bind, ← applyCommittedEntries_isOk, isOk_iff]
      simp

theorem handleInstallSnapshot_isOk (n : RaftNode KvStore) (req : InstallSnapshotReq) :
    (handleInstallSnapshot n req).isOk = true ↔ n.Installs req := by
  unfold handleInstallSnapshot RaftNode.Installs
  by_cases hterm : req.term < n.log.currentTerm
  · rw [if_pos hterm]
    simp [Nat.not_le.mpr hterm]
  rw [if_neg hterm]
  simp only [RaftNode.becomeFollower_snapshotIndex, Nat.not_lt.mp hterm, true_imp_iff]
  by_cases hold : req.lastIncludedIndex ≤ n.log.snapshotIndex
  · rw [if_pos hold]
    simp [Nat.not_lt.mpr hold]
  · rw [if_neg hold, isOk_bind, isOk_iff]
    simp [Nat.not_le.mp hold]

/-- What a node needs of a frame of this type. -/
theorem serve_isOk (node : RaftNode KvStore) (type : UInt8) (body : Bytes) :
    (serve node type body).isOk = true ↔
      (type = WireType.requestVoteReq.toU8 → ∃ req, RequestVoteReq.decode.run' body = .ok req) ∧
      (type = WireType.appendEntriesReq.toU8 →
        ∃ req, AppendEntriesReq.decode.run' body = .ok req ∧ node.Accepts req) ∧
      (type = WireType.installSnapshotReq.toU8 →
        ∃ req, InstallSnapshotReq.decode.run' body = .ok req ∧ node.Installs req) := by
  unfold serve
  -- the type decides which decoder has to succeed
  by_cases hvote : type = WireType.requestVoteReq.toU8
  · subst hvote
    rw [if_pos rfl, isOk_bind]
    simp [WireType.toU8]
  by_cases happend : type = WireType.appendEntriesReq.toU8
  · subst happend
    rw [if_neg hvote, if_pos rfl, isOk_bind]
    simp [WireType.toU8, handleAppendEntries_isOk]
  by_cases hinstall : type = WireType.installSnapshotReq.toU8
  · subst hinstall
    rw [if_neg hvote, if_neg happend, if_pos rfl, isOk_bind]
    simp [WireType.toU8, handleInstallSnapshot_isOk]
  · rw [if_neg hvote, if_neg happend, if_neg hinstall]
    simp [hvote, happend, hinstall]

theorem connLoop_isOk (p : PeerServer KvStore) (frame : RawFrame) :
    (connLoop p frame).isOk = true ↔ p.WellFormed frame := by
  unfold connLoop PeerServer.WellFormed
  by_cases hlength : frame.payload.length < 4
  · rw [if_pos hlength]
    simp [Nat.not_le.mpr hlength]
  have hid : getU32.run' (frame.payload.take 4) = .ok (ofLE (frame.payload.take 4)) := by
    have hraw : getRaw 4 (frame.payload.take 4) = .ok (frame.payload.take 4, []) := by
      simp [getRaw, Nat.not_lt.mp hlength]
    exact get_run'_eq_ok.mpr ⟨[], get_bind_eq_ok.mpr ⟨_, _, hraw, rfl⟩⟩
  rw [if_neg hlength, hid]
  simp only [Nat.not_lt.mp hlength, true_imp_iff]
  change (match p.shards.lookup (ofLE (frame.payload.take 4)) with
    | none => _
    | some node => _ : Except String _).isOk = true ↔ _
  cases p.shards.lookup (ofLE (frame.payload.take 4)) with
  | none => simp
  | some node =>
      simp only [Option.mem_def, Option.some.injEq, forall_eq', ← serve_isOk]
      simp

theorem dispatch_isOk (groups : Bytes → Option (RaftNode KvStore)) (frame : Bytes) :
    (dispatch groups frame).isOk = true ↔ KvServer.WellFormed groups frame := by
  unfold dispatch KvServer.WellFormed
  rw [isOk_bind]
  constructor
  · rintro ⟨⟨⟨op, key⟩, rest⟩, htarget, h⟩
    refine ⟨op, key, rest, htarget, fun n hn hwrite => ?_⟩
    -- a write went through all of its steps
    simp only [Option.mem_def.mp hn, if_neg hwrite] at h
    obtain ⟨⟨cmd, rest'⟩, hcmd, h⟩ := isOk_bind.mp h
    obtain ⟨r, hr, -⟩ := isOk_bind.mp h
    exact ⟨cmd, rest', hcmd, (propose_isOk n _).mp (isOk_iff.mpr ⟨r, hr⟩)⟩
  · rintro ⟨op, key, rest, htarget, h⟩
    refine ⟨⟨⟨op, key⟩, rest⟩, htarget, ?_⟩
    simp only
    cases hgroup : groups key with
    | none => rfl
    | some n =>
        simp only
        split
        · cases n.readTarget <;> rfl
        · next hwrite =>
          -- a write that decodes and can be proposed has an answer either way
          obtain ⟨cmd, rest', hcmd, hproposes⟩ := h n hgroup hwrite
          obtain ⟨r, hr⟩ := isOk_iff.mp ((propose_isOk n _).mpr hproposes)
          refine isOk_bind.mpr ⟨_, hcmd, isOk_bind.mpr ⟨r, hr, ?_⟩⟩
          simp only
          split <;> rfl

end Throwing

/-! ## Processing a frame -/

/-- What becomes of a frame. -/
inductive Processed
  | replied (payload : Bytes)
  | closed
  /-- an exception leaves the thread's function and the process ends -/
  | terminated
  deriving DecidableEq

/-- The frame is answered or its connection closed. -/
def Processed.Contained : Processed → Prop
  | replied _ | closed => True
  | terminated => False

namespace KvServer

/-- The answer to a request that was taken up, from the node at the end of the wait. -/
def Dispatched.reply (d : Dispatched) (n : RaftNode KvStore) : Bytes :=
  match d with
  | .answered bytes => bytes
  | .reading key target => (finishRead n key target).getD (response 2 (addrOf n) [])
  | .writing _ proposed => (finishWrite n proposed).getD (response 4 [] [])

/-- A frame on the client port; `later` is the node at the end of the wait. -/
def process (groups : Bytes → Option (RaftNode KvStore)) (frame : Bytes)
    (later : RaftNode KvStore) : Processed :=
  match Throwing.dispatch groups frame with
  | .ok (_, d) => .replied (d.reply later)
  | .error _ => .terminated

end KvServer

/-- A frame on the peer port. -/
def PeerServer.process (p : PeerServer KvStore) (frame : RawFrame) : Processed :=
  match Throwing.connLoop p frame with
  | .ok (some (_, resp)) => .replied resp.payload
  | .ok none => .closed
  | .error _ => .terminated

/-- A peer that serves one shard, with a follower of a cluster of three. -/
def oneShard : PeerServer KvStore :=
  ⟨AList.singleton 0 (RaftNode.new 2 1000 ⟨[1, 2, 3], []⟩ .empty 0 [])⟩

end KvRaft
