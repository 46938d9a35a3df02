import KvRaft.Aligned

/-!
# KvRaft.CommitBounds

How `commitIndex_` moves, and that it stays between `lastApplied_` and the end
of the log.

Whatever a node does on its own, in a reply callback or on a snapshot only
raises its commit index and keeps the bounds (`RaftNode.Advances`).  What is left
is an accepted AppendEntries request, which sets the commit index to the end of
its own batch and cuts off the log there:

* `commitIndex_mono_iff` — the commit index decreases exactly if such a request
  ends below it;
* `commit_within_log` — the bounds hold along every run in which no request cuts
  off committed entries;
* `stale_request_cuts`, `new_leader_lowers_commit` — delayed requests do both.

Membership changes, snapshots, restarts and copied messages are all allowed.
-/

namespace KvRaft

open PersistentLog

variable {σ : Type}

/-! ## The end of the log -/

theorem PersistentLog.lastIndex_appendAndSync (L : PersistentLog) (es : List LogEntry) :
    (L.appendAndSync es).lastIndex = (es.getLast?.map LogEntry.index).getD L.lastIndex := by
  cases es with
  | nil => rfl
  | cons e es =>
      have hlast : (L.appendAndSync (e :: es)).entries.getLast? = (e :: es).getLast? := by
        refine (List.getLast?_append_of_ne_nil _ ?_)
        exact List.cons_ne_nil e es
      rw [lastIndex, hlast, List.getLast?_cons]
      rfl

theorem PersistentLog.Aligned.lastIndex_compactUpTo {L : PersistentLog} (h : L.Aligned) (i t : Nat)
    (bytes : Bytes) : (L.compactUpTo i t bytes).lastIndex = max L.lastIndex i := by
  rw [(h.compactUpTo i t bytes).lastIndex, h.lastIndex, compactUpTo_snapshotIndex,
    compactUpTo_entries, List.length_drop]
  omega

namespace RaftNode

theorem lastIndex_acceptEntries (n : RaftNode σ) {req : AppendEntriesReq} (hne : req.entries ≠ []) :
    (n.acceptEntries req).log.lastIndex = newLast req := by
  obtain ⟨e, he⟩ := Option.ne_none_iff_exists'.mp (mt List.getLast?_eq_none_iff.mp hne)
  change (n.log.appendAndSync req.entries).lastIndex = _
  rw [lastIndex_appendAndSync, newLast, he]
  rfl

theorem length_collect_le (log : PersistentLog) (last fuel : Nat) :
    (collect log last fuel).length ≤ fuel := by
  induction fuel generalizing last with
  | zero => exact Nat.le_refl 0
  | succ fuel ih =>
      rw [collect]
      cases log.entryAt (last + 1) with
      | none => exact Nat.zero_le _
      | some e => exact Nat.succ_le_succ (ih (last + 1))

/-! ## Bounds -/

structure Bounded (n : RaftNode σ) : Prop where
  lastApplied_le : n.lastApplied ≤ n.commitIndex
  commitIndex_le : n.commitIndex ≤ n.log.lastIndex

/-- The bounds with what they rest on. -/
structure Sound (n : RaftNode σ) : Prop extends Bounded n where
  aligned : n.log.Aligned
  /-- only followers are in term `0` -/
  term_pos : n.role ≠ .follower → 0 < n.log.currentTerm

/-- The commit index does not decrease, and the bounds are kept. -/
structure Advances (n n' : RaftNode σ) : Prop where
  commitIndex_le : n.commitIndex ≤ n'.commitIndex
  sound : n.Sound → n'.Sound

namespace Advances

theorem refl (n : RaftNode σ) : Advances n n := ⟨Nat.le_refl _, fun hs => hs⟩

theorem trans {n₁ n₂ n₃ : RaftNode σ} (h : Advances n₁ n₂) (h' : Advances n₂ n₃) :
    Advances n₁ n₃ :=
  ⟨Nat.le_trans h.commitIndex_le h'.commitIndex_le, fun hs => h'.sound (h.sound hs)⟩

/-- The log keeps its entries, and the role changes with care. -/
theorem of_sameData {n n' : RaftNode σ} (h : SameData n n')
    (hcommit : n'.commitIndex = n.commitIndex)
    (hterm : (n.role ≠ .follower → 0 < n.log.currentTerm) →
      n'.role ≠ .follower → 0 < n'.log.currentTerm) : Advances n n' := by
  have hlast : n'.log.lastIndex = n.log.lastIndex := by
    rw [lastIndex, h.entries, h.snapshotIndex, lastIndex]
  refine ⟨hcommit.ge, fun hs => ⟨⟨?_, ?_⟩, hs.aligned.congr h.entries h.snapshotIndex,
    hterm hs.term_pos⟩⟩
  · rw [h.lastApplied, hcommit]
    exact hs.lastApplied_le
  · rw [hcommit, hlast]
    exact hs.commitIndex_le

/-- Only what is neither in the log nor a role or an index changes. -/
theorem volatile (n : RaftNode σ) (leaderId : NodeId)
    (nextIndex matchIndex : AList fun _ : NodeId => Nat) (votes : Nat → Nat) :
    Advances n { n with leaderId, nextIndex, matchIndex, votes } :=
  of_sameData (.volatile n _ _ _ _ _ _) rfl fun hpos => hpos

end Advances

section Functions

variable [StateMachine σ] (n : RaftNode σ)

theorem applyCommittedEntries_advances : Advances n n.applyCommittedEntries := by
  have hlen : n.toApply.length ≤ n.commitIndex - n.lastApplied := length_collect_le _ _ _
  obtain ⟨_, _, _, _, _, _, heq, -⟩ := n.applyCommittedEntries_eq
  rw [heq]
  refine ⟨Nat.le_refl _, fun hs => ⟨⟨?_, hs.commitIndex_le⟩, hs.aligned, hs.term_pos⟩⟩
  have hle := hs.lastApplied_le
  change n.lastApplied + n.toApply.length ≤ n.commitIndex
  omega

theorem tryAdvanceCommitIndex_advances : Advances n n.tryAdvanceCommitIndex := by
  obtain h | ⟨i, hleads, hgt, hterm, h⟩ := n.tryAdvanceCommitIndex_cases
  · rw [h]
    exact .refl n
  · rw [h]
    refine .trans ⟨Nat.le_of_lt hgt, fun hs => ?_⟩ (applyCommittedEntries_advances _)
    -- the log knows a term for the candidate, so it reaches it
    have hpos : 0 < n.log.currentTerm := hs.term_pos (by rw [hleads]; nofun)
    have hreach : i ≤ n.log.lastIndex := hs.aligned.le_lastIndex (by omega)
    exact ⟨⟨Nat.le_trans hs.lastApplied_le (Nat.le_of_lt hgt), hreach⟩, hs.aligned, hs.term_pos⟩

theorem propose_advances (commandBytes : Bytes) (type : EntryType) :
    Advances n (n.propose commandBytes type).1 := by
  obtain h | ⟨-, h⟩ := n.propose_cases commandBytes type
  · rw [h]
    exact .refl n
  · rw [h]
    have hlast : (n.log.appendAndSync [n.newEntry commandBytes type]).lastIndex =
        n.log.lastIndex + 1 := lastIndex_appendAndSync _ _
    suffices happend : Advances n
        { n with log := n.log.appendAndSync [n.newEntry commandBytes type] } from
      happend.trans (tryAdvanceCommitIndex_advances _)
    refine ⟨Nat.le_refl _, fun hs => ⟨⟨hs.lastApplied_le, ?_⟩, ?_, ?_⟩⟩
    · change n.commitIndex ≤ _
      rw [hlast]
      exact Nat.le_succ_of_le hs.commitIndex_le
    · have happended : Effect (fun _ _ => False) n _ := .append n commandBytes type
      exact happended.aligned nofun hs.aligned
    · rw [appendAndSync_currentTerm]
      exact hs.term_pos

theorem becomeLeader_advances : Advances n n.becomeLeader.1 := by
  by_cases h : n.role = .candidate
  · have hlead : Advances n n.lead := .of_sameData (.volatile n _ _ _ _ _ _) rfl fun hpos _ =>
      hpos (by rw [h]; nofun)
    rw [becomeLeader_fst h]
    exact hlead.trans ((propose_advances _ [] .noOp).trans (tryAdvanceCommitIndex_advances _))
  · rw [becomeLeader_of_ne h]
    exact .refl n

theorem becomeCandidate_advances : Advances n n.becomeCandidate.1 := by
  have hcandidacy : Advances n n.candidacy :=
    .of_sameData (.setHardState n (Nat.le_succ _) _ _ _ _) rfl fun _ _ => Nat.succ_pos _
  have hstands := n.stands_becomeCandidate
  generalize n.becomeCandidate.1 = n', n.becomeCandidate.2 = sent at hstands
  cases hstands with
  | outside =>
      exact .of_sameData (.setHardState n (Nat.le_succ _) _ _ _ _) rfl fun _ _ => Nat.succ_pos _
  | alone => exact hcandidacy.trans (becomeLeader_advances _)
  | ask => exact hcandidacy

omit [StateMachine σ] in
theorem becomeFollower_advances (t : Nat) (l : NodeId) : Advances n (n.becomeFollower t l) :=
  .of_sameData (.becomeFollower n t l) rfl fun _ hne => absurd rfl hne

omit [StateMachine σ] in
theorem castVote_advances (req : RequestVoteReq) : Advances n (n.castVote req).1 := by
  refine .of_sameData (.castVote n req) ?_ fun hpos => ?_
  · unfold castVote
    split <;> rfl
  · rwa [castVote_role, castVote_currentTerm]

theorem acceptSnapshot_advances (req : InstallSnapshotReq) : Advances n (n.acceptSnapshot req) := by
  refine ⟨Nat.le_max_left _ _, fun hs => ⟨⟨?_, ?_⟩, hs.aligned.compactUpTo _ _ _, ?_⟩⟩
  · have := hs.lastApplied_le
    change max n.lastApplied _ ≤ max n.commitIndex _
    omega
  · have := hs.commitIndex_le
    change max n.commitIndex _ ≤ (n.log.compactUpTo _ _ _).lastIndex
    rw [hs.aligned.lastIndex_compactUpTo]
    omega
  · change _ → 0 < (n.log.compactUpTo _ _ _).currentTerm
    rw [compactUpTo_currentTerm]
    exact hs.term_pos

/-- Every handler but that of an AppendEntries request. -/
theorem handle_advances {rpc : Rpc} (h : ∀ req, rpc ≠ .appendEntries req) :
    Advances n (n.handle rpc).1 := by
  have hhandles := n.handles_handle rpc
  generalize (n.handle rpc).1 = n' at hhandles
  cases hhandles with
  | refuse => exact .refl n
  | vote req => exact castVote_advances n req
  | voteLater req => exact (becomeFollower_advances n req.term 0).trans (castVote_advances _ req)
  | reject req | accept req => exact absurd rfl (h req)
  | covered req => exact becomeFollower_advances n req.term req.leaderId
  | install req =>
      exact (becomeFollower_advances n req.term req.leaderId).trans (acceptSnapshot_advances _ req)

theorem callback_advances (peer : NodeId) (ans : Answer) : Advances n (n.callback peer ans).1 := by
  have hcount : ∀ t, Advances n (n.countVote t) := fun _ => .volatile n _ _ _ _
  have hcalls := n.callsBack_callback peer ans
  generalize (n.callback peer ans).1 = n', (n.callback peer ans).2 = sent at hcalls
  cases hcalls with
  | ignore => exact .refl n
  | follow _ t => exact becomeFollower_advances n t 0
  | count => exact hcount _
  | win => exact (hcount _).trans (becomeLeader_advances _)
  | advance => exact (Advances.volatile n _ _ _ _).trans (tryAdvanceCommitIndex_advances _)
  | track => exact .volatile n _ _ _ _

theorem forceSnapshot_advances : Advances n n.forceSnapshot := by
  rcases n.forceSnapshot_cases with h | h
  · rw [h]
    exact .refl n
  · rw [h]
    refine ⟨Nat.le_refl _, fun hs => ⟨⟨hs.lastApplied_le, ?_⟩, hs.aligned.compactUpTo _ _ _, ?_⟩⟩
    · change n.commitIndex ≤ (n.log.compactUpTo _ _ _).lastIndex
      rw [hs.aligned.lastIndex_compactUpTo]
      exact Nat.le_trans hs.commitIndex_le (Nat.le_max_left _ _)
    · change _ → 0 < (n.log.compactUpTo _ _ _).currentTerm
      rw [compactUpTo_currentTerm]
      exact hs.term_pos

theorem maybeSnapshot_advances : Advances n n.maybeSnapshot := by
  rcases n.maybeSnapshot_cases with h | h
  · rw [h]
    exact .refl n
  · rw [h]
    exact n.forceSnapshot_advances

end Functions

/-! ## Accepted requests -/

/-- If the request moves the commit index, it reaches it. -/
def CoversCommit (n : RaftNode σ) (req : AppendEntriesReq) : Prop :=
  n.accepts req → n.commitIndex < req.leaderCommit → n.commitIndex ≤ newLast req

/-- If the request replaces the end of the log or moves the commit index, it
reaches the commit index. -/
def SparesCommitted (n : RaftNode σ) (req : AppendEntriesReq) : Prop :=
  n.accepts req → req.entries ≠ [] ∨ n.commitIndex < req.leaderCommit → n.commitIndex ≤ newLast req

def RpcSparesCommitted (n : RaftNode σ) : Rpc → Prop
  | .appendEntries req => n.SparesCommitted req
  | _ => True

instance (n : RaftNode σ) : (rpc : Rpc) → Decidable (n.RpcSparesCommitted rpc)
  | .appendEntries req => inferInstanceAs (Decidable (n.accepts req → (_ ∨ _) → _))
  | .requestVote .. => isTrue trivial
  | .installSnapshot _ => isTrue trivial

section Accepted

variable [StateMachine σ] (n : RaftNode σ) (req : AppendEntriesReq)

theorem handleAppendEntries_commitIndex : (n.handleAppendEntries req).1.commitIndex =
    if n.accepts req ∧ n.commitIndex < req.leaderCommit then min req.leaderCommit (newLast req)
    else n.commitIndex := by
  have happly : ∀ nd : RaftNode σ, nd.applyCommittedEntries.commitIndex = nd.commitIndex := by
    intro nd
    obtain ⟨_, _, _, _, _, _, heq, -⟩ := nd.applyCommittedEntries_eq
    rw [heq]
  have hhandles := n.handles_handle (.appendEntries req)
  change Handles n _ (n.handleAppendEntries req).1 at hhandles
  generalize (n.handleAppendEntries req).1 = n' at hhandles
  cases hhandles with
  | refuse _ hterm => rw [if_neg fun h => absurd h.1.1 (Nat.not_le_of_lt hterm)]
  | reject _ _ hacc =>
      rw [if_neg fun h => hacc h.1]
      rfl
  | accept _ hacc =>
      simp only [happly, hacc, true_and]
      rfl

theorem commitIndex_le_handleAppendEntries_iff :
    n.commitIndex ≤ (n.handleAppendEntries req).1.commitIndex ↔ n.CoversCommit req := by
  rw [handleAppendEntries_commitIndex, CoversCommit]
  split
  · next h =>
    have := h.2
    refine ⟨fun hle _ _ => by omega, fun hcovers => ?_⟩
    have := hcovers h.1 h.2
    omega
  · next h => exact ⟨fun _ hacc hlt => absurd ⟨hacc, hlt⟩ h, fun _ => Nat.le_refl _⟩

/-- A request that spares the committed entries keeps the bounds. -/
theorem Sound.handleAppendEntries {n : RaftNode σ} {req : AppendEntriesReq} (hs : n.Sound)
    (hcontiguous : IndexedFrom req.prevLogIndex req.entries) (habove : n.StartsAboveSnapshot req)
    (hspares : n.SparesCommitted req) : (n.handleAppendEntries req).1.Sound := by
  have hfollows := becomeFollower_advances n req.term req.leaderId
  have hhandles := n.handles_handle (.appendEntries req)
  change Handles n _ (n.handleAppendEntries req).1 at hhandles
  generalize (n.handleAppendEntries req).1 = n' at hhandles
  cases hhandles with
  | refuse => exact hs
  | reject => exact hfollows.sound hs
  | accept _ hacc =>
      refine (applyCommittedEntries_advances _).sound ?_
      have haccepted : Effect (fun nd rpc => nd = n ∧ rpc = .appendEntries req) n _ :=
        .accept n req ⟨rfl, rfl⟩ hacc
      have haligned := haccepted.aligned
        (fun _ _ ⟨hnd, hreq⟩ => by cases hnd; cases hreq; exact ⟨hcontiguous, habove⟩) hs.aligned
      have hlast : (n.becomeFollower req.term req.leaderId).log.lastIndex = n.log.lastIndex := by
        rw [becomeFollower]
        dsimp only
        split <;> rfl
      have hcommit : ((n.becomeFollower req.term req.leaderId).acceptEntries req).commitIndex =
          if req.leaderCommit > n.commitIndex then min req.leaderCommit (newLast req)
          else n.commitIndex := rfl
      -- the two bounds, after the log has changed
      have happlied := hs.lastApplied_le
      have hreach := hs.commitIndex_le
      refine ⟨⟨?_, ?_⟩, haligned, fun hne => absurd rfl hne⟩
      · change n.lastApplied ≤ _
        rw [hcommit]
        split
        · next hlt =>
          have := hspares hacc (.inr hlt)
          omega
        · exact happlied
      · rw [hcommit]
        -- a heartbeat commits at most up to where it compared the logs
        by_cases hnil : req.entries = []
        · have hprev := prevLogIndex_le hs.aligned hacc.2
          have hlast' : ((n.becomeFollower req.term req.leaderId).acceptEntries req).log.lastIndex =
              n.log.lastIndex := by
            rw [acceptEntries, hnil]
            exact hlast
          have hnew : newLast req = req.prevLogIndex := by rw [newLast, hnil]; rfl
          rw [hlast', hnew]
          split <;> omega
        · -- new entries end at or above what was committed before
          have hnew := hspares hacc (.inl hnil)
          rw [lastIndex_acceptEntries _ hnil]
          split <;> omega

end Accepted

end RaftNode

/-! ## Steps of the cluster -/

namespace Cluster

/-- The request that node `b` gets, if any, reaches its commit index or leaves it
alone. -/
def CoversCommit (c : Cluster σ) (a : Action) (b : NodeId) : Prop :=
  ∀ call ∈ c.delivered a, call.target = b → ∀ req, call.rpc = .appendEntries req →
    (c.nodes b).CoversCommit req

/-- The request that is delivered, if any, spares the committed entries of its
target. -/
def SparesCommitted (c : Cluster σ) (a : Action) : Prop :=
  ∀ call ∈ c.delivered a, (c.nodes call.target).RpcSparesCommitted call.rpc

instance (c : Cluster σ) (a : Action) : Decidable (c.SparesCommitted a) :=
  inferInstanceAs (Decidable (∀ call ∈ c.delivered a, _))

variable [StateMachine σ] {c c' : Cluster σ} {a : Action}

/-- Every step but a restart and an AppendEntries request advances a node. -/
theorem step_advances (h : c.step a = some c') (b : NodeId) :
    (a = .restart b ∧ c'.nodes b = (c.nodes b).restart) ∨
      (c.nodes b).Advances (c'.nodes b) ∨
      ∃ call req, c.delivered a = some call ∧ call.target = b ∧ call.rpc = .appendEntries req ∧
        c'.nodes b = ((c.nodes b).handleAppendEntries req).1 := by
  obtain heq | ⟨sent, hown⟩ | ⟨call, hcall, htarget, heq⟩ | ⟨i, r, -, -, -, heq⟩ := step_node h b
  · rw [heq]
    exact .inr (.inl (.refl _))
  · -- only a restart takes the commit index back
    obtain ⟨rfl, heq, -⟩ | ⟨-, -, heq, -⟩ | ⟨heq, -⟩ | ⟨data, type, heq, -⟩ | ⟨heq, -⟩ |
      ⟨heq, -⟩ := ownStep_cases hown
    · exact .inl ⟨rfl, heq⟩
    all_goals rw [heq]
    · exact .inr (.inl (RaftNode.becomeCandidate_advances _))
    · exact .inr (.inl (.refl _))
    · exact .inr (.inl (RaftNode.propose_advances _ data type))
    · exact .inr (.inl (RaftNode.forceSnapshot_advances _))
    · exact .inr (.inl (RaftNode.maybeSnapshot_advances _))
  · rw [heq]
    -- of the requests, only AppendEntries can do so
    cases hrpc : call.rpc with
    | appendEntries req => exact .inr (.inr ⟨call, req, hcall, htarget, hrpc, rfl⟩)
    | requestVote | installSnapshot => exact .inr (.inl (RaftNode.handle_advances _ nofun))
  · rw [heq]
    exact .inr (.inl (RaftNode.callback_advances _ _ _))

/-- Logs are aligned, and every node is within its bounds. -/
structure BoundedInv (c : Cluster σ) : Prop where
  aligned : c.AlignedInv
  nodes : ∀ n, (c.nodes n).Sound

namespace BoundedInv

theorem init (members : List NodeId) (config : ClusterConfig) (threshold : Nat) :
    BoundedInv (Cluster.init members config threshold : Cluster σ) where
  aligned := .init members config threshold
  nodes := fun _ => ⟨⟨Nat.le_refl _, Nat.le_refl _⟩, .nil 0, nofun⟩

theorem restart {n : RaftNode σ} (haligned : n.log.Aligned) (hsynced : n.log.Synced) :
    n.restart.Sound := by
  have hlog : n.restart.log = n.log := hsynced
  have hcommit : n.restart.commitIndex = n.log.snapshotIndex := by
    rw [← hlog]
    rfl
  refine ⟨⟨Nat.le_refl _, ?_⟩, ?_, nofun⟩
  · rw [hcommit, hlog, haligned.lastIndex]
    exact Nat.le_add_right _ _
  · rwa [hlog]

theorem step (h : c.BoundedInv) (habove : c.AboveSnapshot a) (hspares : c.SparesCommitted a)
    (hstep : c.step a = some c') : c'.BoundedInv := by
  refine ⟨h.aligned.step habove hstep, fun n => ?_⟩
  rcases step_advances hstep n with ⟨-, heq⟩ | hadvances | ⟨call, req, hcall, rfl, hreq, heq⟩
  · rw [heq]
    exact restart (h.aligned.nodes n).1 (h.aligned.nodes n).2
  · exact hadvances.sound (h.nodes n)
  · have hcontiguous := h.aligned.contiguous call req (onItsWay_of_delivered hcall) hreq
    have habove := habove call hcall
    have hspares := hspares call hcall
    rw [hreq] at habove hspares
    rw [heq]
    exact (h.nodes call.target).handleAppendEntries hcontiguous habove hspares

end BoundedInv

end Cluster

variable [StateMachine σ]

/-- **The commit index does not move backwards** in a step other than the node's
restart, exactly if the request the node gets, if any, reaches the commit index
or leaves it alone. -/
theorem commitIndex_mono_iff {c c' : Cluster σ} {a : Action} (hstep : c.step a = some c')
    {b : NodeId} (hrestart : a ≠ .restart b) :
    (c.nodes b).commitIndex ≤ (c'.nodes b).commitIndex ↔ c.CoversCommit a b := by
  by_cases hreq : ∃ call req, c.delivered a = some call ∧ call.target = b ∧
      call.rpc = .appendEntries req
  · obtain ⟨call, req, hcall, rfl, hrpc⟩ := hreq
    have hnode := Cluster.step_delivered hstep hcall
    rw [hrpc] at hnode
    have hiff := RaftNode.commitIndex_le_handleAppendEntries_iff (c.nodes call.target) req
    rw [hnode]
    refine hiff.trans ⟨fun h call' hcall' _ req' hrpc' => ?_, fun h => h call hcall rfl req hrpc⟩
    cases hcall.symm.trans hcall'
    cases hrpc.symm.trans hrpc'
    exact h
  · refine iff_of_true ?_ fun call hcall htarget req hrpc =>
      absurd ⟨call, req, hcall, htarget, hrpc⟩ hreq
    rcases Cluster.step_advances hstep b with ⟨ha, -⟩ | hadvances | ⟨call, req, hcall, ht, hrpc, -⟩
    · exact absurd ha hrestart
    · exact hadvances.commitIndex_le
    · exact absurd ⟨call, req, hcall, ht, hrpc⟩ hreq

/-- Node 2 is about to learn what is committed. -/
def announced : Cluster KvStore := replay Cluster.step committed [.heartbeat 1]

theorem commitIndex_mono_iff_of_announced :
    (announced.nodes 2).commitIndex = 0 ∧ (replicated.nodes 2).commitIndex = 2 ∧
      announced.CoversCommit (.deliver 4) 2 := by
  have hstep : announced.step (.deliver 4) = some (replay Cluster.step announced [.deliver 4]) :=
    step_replay (by decide +kernel)
  exact ⟨by decide +kernel, by decide +kernel,
    (commitIndex_mono_iff hstep nofun).mp (by decide +kernel)⟩

/-- **Committed and applied entries are in the log**, in every state of a run
whose requests start above the snapshots of their targets and spare what the
targets have committed. -/
theorem commit_within_log {members : List NodeId} {config : ClusterConfig} {threshold : Nat}
    {c : Cluster σ} (hrun : Run Cluster.step (fun c a => c.AboveSnapshot a ∧ c.SparesCommitted a)
      (.init members config threshold) c) (n : NodeId) :
    (c.nodes n).lastApplied ≤ (c.nodes n).commitIndex ∧
      (c.nodes n).commitIndex ≤ (c.nodes n).log.lastIndex := by
  have hinv : c.BoundedInv := hrun.invariant (.init members config threshold)
    fun _ _ _ h hok hstep => h.step hok.1 hok.2 hstep
  exact ⟨(hinv.nodes n).lastApplied_le, (hinv.nodes n).commitIndex_le⟩

theorem commit_within_log_of_replicated :
    (replicated.nodes 2).lastApplied = 2 ∧
      (replicated.nodes 2).lastApplied ≤ (replicated.nodes 2).commitIndex ∧
      (replicated.nodes 2).commitIndex ≤ (replicated.nodes 2).log.lastIndex := by
  have hrun : Run Cluster.step (fun c a => c.AboveSnapshot a ∧ c.SparesCommitted a)
      threeNodes.start replicated :=
    .trans (run_replay (by decide +kernel) : Run _ _ _ elected)
      (.trans (run_replay (by decide +kernel) : Run _ _ _ committed)
        (run_replay (by decide +kernel)))
  exact ⟨by decide +kernel, commit_within_log hrun 2⟩

/-- The request with the no-op alone reaches node 2 after it has applied two
entries. -/
def cutOff : Cluster KvStore := replay Cluster.step replicated [.deliver 1]

/-- **A delayed request cuts off what is committed and applied.** -/
theorem stale_request_cuts :
    Run Cluster.step Cluster.Steady threeNodes.start cutOff ∧
      (cutOff.nodes 2).lastApplied = 2 ∧ (cutOff.nodes 2).commitIndex = 2 ∧
      (cutOff.nodes 2).log.lastIndex = 1 := by
  refine ⟨?_, by decide +kernel, by decide +kernel, by decide +kernel⟩
  exact .trans (run_replay (by decide +kernel) : Run _ _ _ elected)
    (.trans (run_replay (by decide +kernel) : Run _ _ _ committed)
      (.trans (run_replay (by decide +kernel) : Run _ _ _ replicated)
        (run_replay (by decide +kernel))))

/-! ## A commit index that moves backwards -/

/-- Node 1 replicates three entries to node 2 and commits them, and a fourth one
to both others. -/
def fourEntries : Cluster KvStore :=
  replay Cluster.step elected [.propose 1 putCommand, .propose 1 putCommand, .heartbeat 1,
    .deliver 3, .reply 0, .propose 1 putCommand, .heartbeat 1, .deliver 5, .deliver 4, .reply 1]

/-- Node 3 learns that all four are committed, node 2 that three are; then the
request with the no-op alone reaches both. -/
def bothCut : Cluster KvStore :=
  replay Cluster.step fourEntries [.heartbeat 1, .deliver 5, .deliver 2, .deliver 1]

/-- Node 3 is elected by node 2 and sends it the no-op of its term, at index 2. -/
def reelected : Cluster KvStore :=
  replay Cluster.step bothCut [.timeout 3, .deliver 4, .reply 4]

def lowered : Cluster KvStore := replay Cluster.step reelected [.deliver 5]

theorem reelected_run : Run Cluster.step Cluster.Steady threeNodes.start reelected :=
  .trans (run_replay (by decide +kernel) : Run _ _ _ elected)
    (.trans (run_replay (by decide +kernel) : Run _ _ _ fourEntries)
      (.trans (run_replay (by decide +kernel) : Run _ _ _ bothCut)
        (run_replay (by decide +kernel))))

/-- **The commit index of node 2 moves backwards** when it gets the first request
of the new leader. -/
theorem new_leader_lowers_commit :
    Run Cluster.step Cluster.Steady threeNodes.start reelected ∧
      reelected.step (.deliver 5) = some lowered ∧
      (reelected.nodes 2).commitIndex = 3 ∧ (lowered.nodes 2).commitIndex = 2 :=
  ⟨reelected_run, step_replay (by decide +kernel), by decide +kernel, by decide +kernel⟩

end KvRaft
