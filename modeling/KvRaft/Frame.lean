import KvRaft.Cluster
import KvRaft.KvSnapshot

/-!
# KvRaft.Frame

Everything the functions of a node can do, case by case (`Handles`,
`CallsBack`, `Stands`), so that no later module looks into them; what they
leave alone; and how a node comes to lead: it is a candidate, keeps the log it
stood with and puts a no-op on top (`Cluster.step_elects`).
-/

namespace KvRaft

/-- The term of the node that sent the request. -/
def Rpc.term : Rpc → Nat
  | requestVote req _ => req.term
  | appendEntries req => req.term
  | installSnapshot req => req.term

namespace RaftNode

variable {σ : Type} [StateMachine σ] {n : RaftNode σ}

/-! ## Applying and committing -/

theorem applyOne_sm (n : RaftNode σ) (e : LogEntry) :
    (n.applyOne e).1.sm = StateMachine.takes n.sm e := by
  unfold applyOne StateMachine.takes
  cases e.type with
  | config =>
      obtain ⟨config, ni, mi, hcfg⟩ := n.applyConfigEntry_eq e
      simp only [hcfg]
  | _ => rfl

/-- The state machine takes the entries of a batch one after the other. -/
theorem foldl_applyEntry_sm (batch : List LogEntry) (n : RaftNode σ) :
    (batch.foldl applyEntry n).sm = batch.foldl StateMachine.takes n.sm := by
  induction batch generalizing n with
  | nil => rfl
  | cons e batch ih =>
      rw [List.foldl_cons, List.foldl_cons, ih, ← applyOne_sm]
      rfl

/-- Applying claims a batch, records it with its results and leaves the log,
the role and the commit index alone. -/
theorem applyCommittedEntries_eq (n : RaftNode σ) :
    ∃ sm config nextIndex matchIndex pendingResults records,
      n.applyCommittedEntries =
        { n with sm, config, nextIndex, matchIndex, pendingResults,
                 lastApplied := n.lastApplied + n.toApply.length
                 applied := n.applied ++ records } ∧
      records.map Applied.entry = n.toApply ∧
      (∀ i, i ∉ n.toApply.map LogEntry.index →
        pendingResults.lookup i = n.pendingResults.lookup i) ∧
      ((n.toApply.map LogEntry.index).Nodup →
        ∀ o ∈ records, pendingResults.lookup o.entry.index = some o.result) :=
  foldl_applyEntry n.toApply n.claim

@[simp] theorem applyCommittedEntries_log (n : RaftNode σ) :
    n.applyCommittedEntries.log = n.log := by
  obtain ⟨_, _, _, _, _, _, h, -⟩ := n.applyCommittedEntries_eq
  rw [h]

@[simp] theorem applyCommittedEntries_role (n : RaftNode σ) :
    n.applyCommittedEntries.role = n.role := by
  obtain ⟨_, _, _, _, _, _, h, -⟩ := n.applyCommittedEntries_eq
  rw [h]

/-- A leader commits an entry of its term that a majority holds, or nothing. -/
theorem tryAdvanceCommitIndex_cases (n : RaftNode σ) :
    n.tryAdvanceCommitIndex = n ∨
      ∃ i, n.role = .leader ∧ n.commitIndex < i ∧ n.log.termAt i = n.log.currentTerm ∧
        n.tryAdvanceCommitIndex = { n with commitIndex := i }.applyCommittedEntries := by
  unfold tryAdvanceCommitIndex
  split
  · exact .inl rfl
  · next hrole =>
    split
    · exact .inl rfl
    · next i _ =>
      split
      · next hnew => exact .inr ⟨i, not_not.mp hrole, hnew.1, hnew.2, rfl⟩
      · exact .inl rfl

@[simp] theorem tryAdvanceCommitIndex_log (n : RaftNode σ) :
    n.tryAdvanceCommitIndex.log = n.log := by
  obtain h | ⟨i, -, -, -, h⟩ := n.tryAdvanceCommitIndex_cases
  · rw [h]
  · rw [h, applyCommittedEntries_log]

@[simp] theorem tryAdvanceCommitIndex_role (n : RaftNode σ) :
    n.tryAdvanceCommitIndex.role = n.role := by
  obtain h | ⟨i, -, -, -, h⟩ := n.tryAdvanceCommitIndex_cases
  · rw [h]
  · rw [h, applyCommittedEntries_role]

theorem propose_cases (n : RaftNode σ) (commandBytes : Bytes) (type : EntryType) :
    (n.propose commandBytes type).1 = n ∨
      n.role = .leader ∧ (n.propose commandBytes type).1 = tryAdvanceCommitIndex
        { n with log := n.log.appendAndSync [n.newEntry commandBytes type] } := by
  unfold propose
  split
  · exact .inl rfl
  · next hrole => exact .inr ⟨not_not.mp hrole, rfl⟩

theorem propose_fst (h : n.role = .leader) (commandBytes : Bytes) (type : EntryType) :
    (n.propose commandBytes type).1 = tryAdvanceCommitIndex
      { n with log := n.log.appendAndSync [n.newEntry commandBytes type] } := by
  unfold propose
  rw [if_neg (not_not.mpr h)]

/-- A leader's proposal goes on top of its log. -/
theorem propose_log (h : n.role = .leader) (commandBytes : Bytes) (type : EntryType) :
    (n.propose commandBytes type).1.log = n.log.appendAndSync [n.newEntry commandBytes type] := by
  rw [propose_fst h, tryAdvanceCommitIndex_log]

@[simp] theorem propose_role (n : RaftNode σ) (commandBytes : Bytes) (type : EntryType) :
    (n.propose commandBytes type).1.role = n.role := by
  obtain h | ⟨-, h⟩ := n.propose_cases commandBytes type
  · rw [h]
  · rw [h, tryAdvanceCommitIndex_role]

theorem forceSnapshot_cases (n : RaftNode σ) :
    n.forceSnapshot = n ∨ n.forceSnapshot =
      { n with
        log := n.log.compactUpTo n.lastApplied (n.log.termAt n.lastApplied)
          (StateMachine.snapshot n.sm) } := by
  unfold forceSnapshot
  split
  · exact .inl rfl
  · exact .inr rfl

theorem maybeSnapshot_cases (n : RaftNode σ) :
    n.maybeSnapshot = n ∨ n.maybeSnapshot = n.forceSnapshot := by
  unfold maybeSnapshot
  split
  · exact .inr rfl
  · exact .inl rfl

@[simp] theorem forceSnapshot_role (n : RaftNode σ) : n.forceSnapshot.role = n.role := by
  rcases n.forceSnapshot_cases with h | h <;> rw [h]

@[simp] theorem forceSnapshot_lastApplied (n : RaftNode σ) :
    n.forceSnapshot.lastApplied = n.lastApplied := by
  rcases n.forceSnapshot_cases with h | h <;> rw [h]

@[simp] theorem maybeSnapshot_lastApplied (n : RaftNode σ) :
    n.maybeSnapshot.lastApplied = n.lastApplied := by
  rcases n.maybeSnapshot_cases with h | h
  · rw [h]
  · rw [h, forceSnapshot_lastApplied]

@[simp] theorem maybeSnapshot_role (n : RaftNode σ) : n.maybeSnapshot.role = n.role := by
  rcases n.maybeSnapshot_cases with h | h
  · rw [h]
  · rw [h, forceSnapshot_role]

/-! ## Accepted requests -/

/-- The request passes the term check and the consistency check. -/
def accepts (n : RaftNode σ) (req : AppendEntriesReq) : Prop :=
  n.log.currentTerm ≤ req.term ∧ consistencyCheck n.log req = none

instance (n : RaftNode σ) (req : AppendEntriesReq) : Decidable (n.accepts req) :=
  inferInstanceAs (Decidable (_ ∧ _))

omit [StateMachine σ] in
/-- The consistency check does not look at the hard state. -/
theorem consistencyCheck_becomeFollower (n : RaftNode σ) (t : Nat) (l : NodeId)
    (req : AppendEntriesReq) :
    consistencyCheck (n.becomeFollower t l).log req = consistencyCheck n.log req := by
  have hstart : ∀ u i, conflictStart (n.log.setHardState t 0) u i = conflictStart n.log u i := by
    intro u i
    induction i with
    | zero => rfl
    | succ i ih => simp only [conflictStart, ih]; rfl
  simp only [becomeFollower]
  split
  · simp only [consistencyCheck, hstart]; rfl
  · rfl

omit [StateMachine σ] in
/-- A passed consistency check: the request starts at the beginning, below the
snapshot, or at an entry of the term it names. -/
theorem of_consistencyCheck {log : PersistentLog} {req : AppendEntriesReq}
    (h : consistencyCheck log req = none) :
    req.prevLogIndex = 0 ∨
      (req.prevLogIndex ≤ log.snapshotIndex ∧ log.termAt req.prevLogIndex = 0) ∨
      (log.termAt req.prevLogIndex ≠ 0 ∧ log.termAt req.prevLogIndex = req.prevLogTerm) := by
  unfold consistencyCheck at h
  split at h
  · simp only at h
    split at h
    · contradiction
    · next h₁ =>
      split at h
      · contradiction
      · next h₂ =>
        by_cases h0 : log.termAt req.prevLogIndex = 0
        · exact .inr (.inl ⟨by omega, h0⟩)
        · exact .inr (.inr ⟨h0, by omega⟩)
  · exact .inl (by omega)

/-- An accepted request replaces the end of the log. -/
theorem handleAppendEntries_log {req : AppendEntriesReq} (h : n.accepts req) :
    (n.handleAppendEntries req).1.log
      = (n.becomeFollower req.term req.leaderId).log.appendAndSync req.entries := by
  unfold handleAppendEntries
  rw [if_neg (by have := h.1; omega)]
  simp only [consistencyCheck_becomeFollower, h.2]
  exact applyCommittedEntries_log _

/-! ## Handlers -/

/-- `Handles n rpc n'`: what the node `n` may become by handling `rpc`. -/
inductive Handles (n : RaftNode σ) : Rpc → RaftNode σ → Prop
  | refuse (rpc : Rpc) (hterm : rpc.term < n.log.currentTerm) : Handles n rpc n
  | vote (req : RequestVoteReq) (majority : Nat) :
      Handles n (.requestVote req majority) (n.castVote req).1
  | voteLater (req : RequestVoteReq) (majority : Nat) :
      Handles n (.requestVote req majority) ((n.becomeFollower req.term 0).castVote req).1
  | reject (req : AppendEntriesReq) (hterm : n.log.currentTerm ≤ req.term)
      (hacc : ¬ n.accepts req) :
      Handles n (.appendEntries req) (n.becomeFollower req.term req.leaderId)
  | accept (req : AppendEntriesReq) (hacc : n.accepts req) :
      Handles n (.appendEntries req)
        ((n.becomeFollower req.term req.leaderId).acceptEntries req).applyCommittedEntries
  | covered (req : InstallSnapshotReq) (hterm : n.log.currentTerm ≤ req.term) :
      Handles n (.installSnapshot req) (n.becomeFollower req.term req.leaderId)
  | install (req : InstallSnapshotReq) (hterm : n.log.currentTerm ≤ req.term)
      (hgt : n.log.snapshotIndex < req.lastIncludedIndex) :
      Handles n (.installSnapshot req)
        ((n.becomeFollower req.term req.leaderId).acceptSnapshot req)

omit [StateMachine σ] in
theorem becomeFollower_snapshotIndex (n : RaftNode σ) (t : Nat) (l : NodeId) :
    (n.becomeFollower t l).log.snapshotIndex = n.log.snapshotIndex := by
  unfold becomeFollower
  split <;> rfl

omit [StateMachine σ] in
theorem becomeFollower_currentTerm (n : RaftNode σ) {t : Nat} (h : n.log.currentTerm ≤ t)
    (l : NodeId) : (n.becomeFollower t l).log.currentTerm = t := by
  unfold becomeFollower
  dsimp only
  split
  · rfl
  · omega

/-- Everything a handler can do. -/
theorem handles_handle (n : RaftNode σ) (rpc : Rpc) : Handles n rpc (n.handle rpc).1 := by
  cases rpc with
  | requestVote req majority =>
      change Handles n _ (n.handleRequestVote req).1
      unfold handleRequestVote
      split
      · next hterm => exact .refuse _ hterm
      · -- a newer term is taken over before the vote is considered
        split
        · exact .voteLater req majority
        · exact .vote req majority
  | appendEntries req =>
      change Handles n _ (n.handleAppendEntries req).1
      unfold handleAppendEntries
      split
      · next hterm => exact .refuse _ hterm
      · next hterm =>
        -- becomeFollower leaves the log alone, so the check is the same before and after
        simp only [consistencyCheck_becomeFollower]
        split
        · next hcheck =>
          exact .reject req (Nat.le_of_not_lt hterm) fun hacc => nomatch hacc.2.symm.trans hcheck
        · next hcheck => exact .accept req ⟨Nat.le_of_not_lt hterm, hcheck⟩
  | installSnapshot req =>
      change Handles n _ (n.handleInstallSnapshot req).1
      unfold handleInstallSnapshot
      split
      · next hterm => exact .refuse _ hterm
      · next hterm =>
        simp only [becomeFollower_snapshotIndex]
        split
        · exact .covered req (Nat.le_of_not_lt hterm)
        · next hgt => exact .install req (Nat.le_of_not_lt hterm) (Nat.lt_of_not_le hgt)

/-! ## Coming to lead -/

theorem becomeLeader_of_ne (h : n.role ≠ .candidate) : n.becomeLeader = (n, []) := if_pos h

theorem becomeLeader_eq (h : n.role = .candidate) :
    n.becomeLeader = ((n.lead.propose [] .noOp).1.tryAdvanceCommitIndex,
      (n.lead.propose [] .noOp).1.tryAdvanceCommitIndex.broadcastAppendEntries) := by
  unfold becomeLeader
  rw [if_neg (not_not.mpr h)]

theorem becomeLeader_fst (h : n.role = .candidate) :
    n.becomeLeader.1 = (n.lead.propose [] .noOp).1.tryAdvanceCommitIndex := by
  rw [becomeLeader_eq h]

theorem becomeLeader_snd (h : n.role = .candidate) :
    n.becomeLeader.2 = n.becomeLeader.1.broadcastAppendEntries := by
  rw [becomeLeader_eq h]

/-- A candidate that comes to lead puts a no-op of its term on its log. -/
theorem becomeLeader_log (h : n.role = .candidate) :
    n.becomeLeader.1.log = n.log.appendAndSync [n.newEntry [] .noOp] := by
  have hlead : n.lead.role = .leader := rfl
  rw [becomeLeader_fst h, tryAdvanceCommitIndex_log, propose_log hlead]
  rfl

/-- A candidate with its own vote. -/
def candidacy (n : RaftNode σ) : RaftNode σ :=
  { n.stand with votes := Function.update n.votes (n.log.currentTerm + 1) 1 }

/-- `Stands n n' sent`: what a node `n` that stands for election may become and
send. -/
inductive Stands (n : RaftNode σ) : RaftNode σ → List Call → Prop
  | outside : Stands n n.stand []
  | alone : Stands n n.candidacy.becomeLeader.1 n.candidacy.becomeLeader.2
  | ask : Stands n n.candidacy ((n.config.voters.filter (· ≠ n.id)).map fun peer =>
      ⟨n.id, peer, n.incarnation, .requestVote n.stand.requestVoteReq n.majority⟩)

/-- Everything a candidacy can do. -/
theorem stands_becomeCandidate (n : RaftNode σ) :
    Stands n n.becomeCandidate.1 n.becomeCandidate.2 := by
  unfold becomeCandidate
  simp only
  split
  · exact .outside
  · split
    · exact .alone
    · exact .ask

/-- One vote more in term `t`. -/
def countVote (n : RaftNode σ) (t : Nat) : RaftNode σ :=
  { n with votes := Function.update n.votes t (n.votes t + 1) }

/-- `CallsBack n ans n' sent`: what the node `n` may become and send by the
callback of the answer `ans`. -/
inductive CallsBack (n : RaftNode σ) : Answer → RaftNode σ → List Call → Prop
  | ignore (ans : Answer) : CallsBack n ans n []
  | follow (ans : Answer) (t : Nat) : CallsBack n ans (n.becomeFollower t 0) []
  | count (req : RequestVoteReq) (majority : Nat) (resp : RequestVoteResp)
      (hcandidate : n.role = .candidate) (hterm : n.log.currentTerm = req.term)
      (hgranted : resp.voteGranted = true) :
      CallsBack n (.requestVote req majority resp) (n.countVote req.term) []
  | win (req : RequestVoteReq) (majority : Nat) (resp : RequestVoteResp)
      (hcandidate : n.role = .candidate) (hterm : n.log.currentTerm = req.term)
      (hgranted : resp.voteGranted = true) :
      CallsBack n (.requestVote req majority resp) (n.countVote req.term).becomeLeader.1
        (n.countVote req.term).becomeLeader.2
  | advance (req : AppendEntriesReq) (resp : AppendEntriesResp)
      (nextIndex matchIndex : AList fun _ : NodeId => Nat) :
      CallsBack n (.appendEntries req resp)
        { n with nextIndex, matchIndex }.tryAdvanceCommitIndex []
  | track (ans : Answer) (nextIndex matchIndex : AList fun _ : NodeId => Nat) :
      CallsBack n ans { n with nextIndex, matchIndex } []

/-- Everything a callback can do. -/
theorem callsBack_callback (n : RaftNode σ) (peer : NodeId) (ans : Answer) :
    CallsBack n ans (n.callback peer ans).1 (n.callback peer ans).2 := by
  cases ans with
  | requestVote req majority resp =>
      simp only [callback, onRequestVoteReply]
      split
      · exact .ignore _
      · next hrole =>
        rw [not_or, not_not, not_not] at hrole
        split
        · exact .follow _ resp.term
        · split
          · next hgranted =>
            -- the vote that makes the majority
            split
            · exact .win req majority resp hrole.1 hrole.2 hgranted
            · exact .count req majority resp hrole.1 hrole.2 hgranted
          · exact .ignore _
  | appendEntries req resp =>
      simp only [callback, onAppendEntriesReply]
      split
      · exact .follow _ resp.term
      · split
        · exact .ignore _
        · split
          · exact .advance req resp _ _
          · exact .track _ _ _
  | installSnapshot req resp =>
      simp only [callback, onInstallSnapshotReply]
      split
      · exact .follow _ resp.term
      · exact .track _ _ _

omit [StateMachine σ] in
theorem castVote_role (req : RequestVoteReq) : (n.castVote req).1.role = n.role := by
  unfold castVote
  split <;> rfl

omit [StateMachine σ] in
theorem castVote_currentTerm (req : RequestVoteReq) :
    (n.castVote req).1.log.currentTerm = n.log.currentTerm := by
  unfold castVote
  split <;> rfl

/-- No handler makes a node the leader. -/
theorem role_handle {rpc : Rpc} (h : (n.handle rpc).1.role = .leader) : n.role = .leader := by
  have hhandles := n.handles_handle rpc
  generalize (n.handle rpc).1 = n' at h hhandles
  cases hhandles with
  | refuse => exact h
  | vote => rwa [castVote_role] at h
  | voteLater =>
      rw [castVote_role] at h
      contradiction
  | accept =>
      rw [applyCommittedEntries_role] at h
      contradiction
  | reject | covered | install => contradiction

/-- A candidate leads at once only by `becomeLeader`. -/
theorem becomeCandidate_elects (h : n.becomeCandidate.1.role = .leader) :
    ∃ nd : RaftNode σ, nd.role = .candidate ∧ nd.log = n.stand.log ∧
      n.becomeCandidate.1 = nd.becomeLeader.1 := by
  have hstands := n.stands_becomeCandidate
  generalize n.becomeCandidate.1 = n', n.becomeCandidate.2 = sent at h hstands
  cases hstands with
  | alone => exact ⟨n.candidacy, rfl, rfl, rfl⟩
  | outside | ask => contradiction

/-- Of the callbacks only that of a vote makes a node the leader. -/
theorem callback_elects {peer : NodeId} {ans : Answer} (hn : n.role ≠ .leader)
    (h : (n.callback peer ans).1.role = .leader) :
    ∃ nd : RaftNode σ, nd.role = .candidate ∧ nd.log = n.log ∧
      (n.callback peer ans).1 = nd.becomeLeader.1 := by
  have hcalls := n.callsBack_callback peer ans
  generalize (n.callback peer ans).1 = n', (n.callback peer ans).2 = sent at h hcalls
  cases hcalls with
  | win req majority resp hcandidate => exact ⟨n.countVote req.term, hcandidate, rfl, rfl⟩
  | follow => contradiction
  | advance =>
      rw [tryAdvanceCommitIndex_role] at h
      exact absurd h hn
  | ignore | count | track => exact absurd h hn

end RaftNode

namespace Cluster

variable {σ : Type} [StateMachine σ] {c c' : Cluster σ} {a : Action} {b : NodeId}

/-- A node that comes to lead in a step does so by `becomeLeader`, with the
entries it had. -/
theorem step_elects (hstep : c.step a = some c') (hb : (c.nodes b).role ≠ .leader)
    (hb' : (c'.nodes b).role = .leader) :
    ∃ nd : RaftNode σ, nd.role = .candidate ∧ nd.log.entries = (c.nodes b).log.entries ∧
      nd.log.snapshotIndex = (c.nodes b).log.snapshotIndex ∧ c'.nodes b = nd.becomeLeader.1 := by
  have hlead : ∀ nd : RaftNode σ, c'.nodes b = nd → nd.role ≠ (c.nodes b).role :=
    fun nd heq hrole => hb (by rw [← hrole, ← heq, hb'])
  obtain heq | ⟨sent, hown⟩ | ⟨call, -, -, heq⟩ | ⟨i, r, -, -, -, heq⟩ := step_node hstep b
  · exact absurd rfl (hlead _ heq)
  · obtain ⟨-, heq, -⟩ | ⟨-, -, heq, -⟩ | ⟨heq, -⟩ | ⟨data, type, heq, -⟩ | ⟨heq, -⟩ |
      ⟨heq, -⟩ := ownStep_cases hown
    · rw [heq] at hb'
      contradiction
    · obtain ⟨nd, hr, hlog, hnd⟩ := RaftNode.becomeCandidate_elects (n := c.nodes b)
        (by rw [← heq]; exact hb')
      exact ⟨nd, hr, by rw [hlog]; rfl, by rw [hlog]; rfl, by rw [heq, hnd]⟩
    -- the role stays as it is
    · exact absurd rfl (hlead _ heq)
    · exact absurd (RaftNode.propose_role _ _ _) (hlead _ heq)
    · exact absurd (RaftNode.forceSnapshot_role _) (hlead _ heq)
    · exact absurd (RaftNode.maybeSnapshot_role _) (hlead _ heq)
  · rw [heq] at hb'
    exact absurd (RaftNode.role_handle hb') hb
  · rw [heq] at hb'
    obtain ⟨nd, hr, hlog, hnd⟩ := RaftNode.callback_elects hb hb'
    exact ⟨nd, hr, by rw [hlog], by rw [hlog], by rw [heq, hnd]⟩

end Cluster

end KvRaft
