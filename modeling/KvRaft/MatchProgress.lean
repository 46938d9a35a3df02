import KvRaft.Effect
import KvRaft.Safety

/-!
# KvRaft.MatchProgress

What a leader knows of its peers.  The callbacks of AppendEntries and
InstallSnapshot overwrite the match index of the peer with what the reply speaks
of, however old it is, and nothing else moves it: the voters a configuration adds
start at 0, which is what they stood at.

* `matched_mono_iff` — while a node leads, a step lowers no match index exactly if
  the reply it gets, if any, does not speak of less than is known;
* `match_progress_monotone` — so over any number of steps;
* `reply_lowers_match` — two replies of one peer in the other order.
-/

namespace KvRaft

variable {σ : Type}

namespace RaftNode

/-- `matchIndex_[p]`, which is 0 for a peer that has none. -/
def matched (n : RaftNode σ) (p : NodeId) : Nat := (n.matchIndex.lookup p).getD 0

/-- Whoever has a match index has a next index, too. -/
def Paired (n : RaftNode σ) : Prop := ∀ v ∈ n.matchIndex, v ∈ n.nextIndex

/-- The match indices stay what they are. -/
structure KeepsMatches (n n' : RaftNode σ) : Prop where
  paired : n'.Paired
  matched : ∀ p, n'.matched p = n.matched p

theorem Paired.keeps {n n' : RaftNode σ} (h : n.Paired) (hmatch : n'.matchIndex = n.matchIndex)
    (hnext : n'.nextIndex = n.nextIndex) : KeepsMatches n n' := by
  constructor
  · rw [Paired, hmatch, hnext]
    exact h
  · intro p
    rw [matched, hmatch, matched]

theorem KeepsMatches.trans {n₁ n₂ n₃ : RaftNode σ} (h : KeepsMatches n₁ n₂)
    (h' : KeepsMatches n₂ n₃) : KeepsMatches n₁ n₃ :=
  ⟨h'.paired, fun p => (h'.matched p).trans (h.matched p)⟩

/-- Another match index for one peer. -/
theorem Paired.insert {n : RaftNode σ} (h : n.Paired) (peer : NodeId) (i j : Nat) :
    Paired { n with
      matchIndex := n.matchIndex.insert peer i, nextIndex := n.nextIndex.insert peer j } := by
  intro v hv
  exact (AList.mem_insert _).mpr (((AList.mem_insert _).mp hv).imp_right (h v))

/-! ## Configurations -/

theorem trackVoter_keeps {n : RaftNode σ} (h : n.Paired) (last : Nat) (v : NodeId) :
    KeepsMatches n (n.trackVoter last v) := by
  unfold trackVoter
  split
  · exact h.keeps rfl rfl
  · next hnew =>
    refine ⟨h.insert v 0 (last + 1), fun p => ?_⟩
    unfold matched
    by_cases hp : p = v
    · -- a voter without a next index has no match index either
      have hnone : n.matchIndex.lookup p = none :=
        AList.lookup_eq_none.mpr fun hmem => AList.lookup_eq_none.mp hnew (hp ▸ h p hmem)
      rw [hnone, hp, AList.lookup_insert]
      rfl
    · rw [AList.lookup_insert_ne hp]

theorem foldl_trackVoter_keeps (last : Nat) (voters : List NodeId) {n : RaftNode σ}
    (h : n.Paired) : KeepsMatches n (voters.foldl (trackVoter last) n) := by
  induction voters generalizing n with
  | nil => exact h.keeps rfl rfl
  | cons v voters ih =>
      have hone := trackVoter_keeps h last v
      exact hone.trans (ih hone.paired)

theorem applyConfigEntry_keeps {n : RaftNode σ} (h : n.Paired) (e : LogEntry) :
    KeepsMatches n (n.applyConfigEntry e) := by
  unfold applyConfigEntry
  split
  · exact h.keeps rfl rfl
  · next config _ =>
    simp only
    split
    · have hconfig : KeepsMatches n { n with config } := h.keeps rfl rfl
      exact hconfig.trans (foldl_trackVoter_keeps _ _ hconfig.paired)
    · exact h.keeps rfl rfl

variable [StateMachine σ]

theorem applyEntry_keeps {n : RaftNode σ} (h : n.Paired) (e : LogEntry) :
    KeepsMatches n (n.applyEntry e) := by
  unfold applyEntry applyOne
  cases e.type with
  | config =>
      have hconfig := applyConfigEntry_keeps h e
      exact hconfig.trans (hconfig.paired.keeps rfl rfl)
  | _ => exact h.keeps rfl rfl

theorem applyCommittedEntries_keeps {n : RaftNode σ} (h : n.Paired) :
    KeepsMatches n n.applyCommittedEntries := by
  have hbatch : ∀ (batch : List LogEntry) {n : RaftNode σ}, n.Paired →
      KeepsMatches n (batch.foldl applyEntry n) := by
    intro batch
    induction batch with
    | nil => exact fun h => h.keeps rfl rfl
    | cons e batch ih =>
        intro n h
        have hone := applyEntry_keeps h e
        exact hone.trans (ih hone.paired)
  have hclaim : KeepsMatches n n.claim := h.keeps rfl rfl
  exact hclaim.trans (hbatch n.toApply hclaim.paired)

theorem tryAdvanceCommitIndex_keeps {n : RaftNode σ} (h : n.Paired) :
    KeepsMatches n n.tryAdvanceCommitIndex := by
  obtain heq | ⟨i, -, -, -, heq⟩ := n.tryAdvanceCommitIndex_cases
  · rw [heq]
    exact h.keeps rfl rfl
  · rw [heq]
    have hcommit : KeepsMatches n { n with commitIndex := i } := h.keeps rfl rfl
    exact hcommit.trans (applyCommittedEntries_keeps hcommit.paired)

theorem propose_keeps {n : RaftNode σ} (h : n.Paired) (data : Bytes) (type : EntryType) :
    KeepsMatches n (n.propose data type).1 := by
  obtain heq | ⟨-, heq⟩ := n.propose_cases data type
  · rw [heq]
    exact h.keeps rfl rfl
  · rw [heq]
    have hlog : KeepsMatches n { n with log := n.log.appendAndSync [n.newEntry data type] } :=
      h.keeps rfl rfl
    exact hlog.trans (tryAdvanceCommitIndex_keeps hlog.paired)

theorem forceSnapshot_keeps {n : RaftNode σ} (h : n.Paired) : KeepsMatches n n.forceSnapshot := by
  rcases n.forceSnapshot_cases with heq | heq <;> rw [heq] <;> exact h.keeps rfl rfl

theorem maybeSnapshot_keeps {n : RaftNode σ} (h : n.Paired) : KeepsMatches n n.maybeSnapshot := by
  rcases n.maybeSnapshot_cases with heq | heq <;> rw [heq]
  · exact h.keeps rfl rfl
  · exact forceSnapshot_keeps h

omit [StateMachine σ] in
theorem castVote_keeps {n : RaftNode σ} (h : n.Paired) (req : RequestVoteReq) :
    KeepsMatches n (n.castVote req).1 := by
  unfold castVote
  split <;> exact h.keeps rfl rfl

theorem handle_keeps {n : RaftNode σ} (h : n.Paired) (rpc : Rpc) :
    KeepsMatches n (n.handle rpc).1 := by
  have hfollow (t : Nat) (l : NodeId) : KeepsMatches n (n.becomeFollower t l) := h.keeps rfl rfl
  have hhandles := n.handles_handle rpc
  generalize (n.handle rpc).1 = n' at hhandles
  cases hhandles with
  | refuse => exact h.keeps rfl rfl
  | vote => exact castVote_keeps h _
  | voteLater => exact (hfollow _ _).trans (castVote_keeps (hfollow _ _).paired _)
  | reject | covered => exact hfollow _ _
  | install => exact h.keeps rfl rfl
  | accept req =>
      have haccept : KeepsMatches n
          ((n.becomeFollower req.term req.leaderId).acceptEntries req) := h.keeps rfl rfl
      exact haccept.trans (applyCommittedEntries_keeps haccept.paired)

/-! ## Coming to lead -/

theorem becomeLeader_paired {n : RaftNode σ} (h : n.Paired) : n.becomeLeader.1.Paired := by
  by_cases hrole : n.role = .candidate
  · have hlead : n.lead.Paired := fun v hv => mem_foldl_insert.mpr (mem_foldl_insert.mp hv)
    have hpropose := propose_keeps hlead [] .noOp
    rw [becomeLeader_fst hrole]
    exact (tryAdvanceCommitIndex_keeps hpropose.paired).paired
  · rw [becomeLeader_of_ne hrole]
    exact h

theorem becomeCandidate_paired {n : RaftNode σ} (h : n.Paired) : n.becomeCandidate.1.Paired := by
  have hstands := n.stands_becomeCandidate
  generalize n.becomeCandidate.1 = n', n.becomeCandidate.2 = sent at hstands
  cases hstands with
  | alone => exact becomeLeader_paired h
  | outside | ask => exact h

/-! ## Replies -/

/-- The match index that the callback of an answer records for its peer. -/
def recorded (n : RaftNode σ) : Answer → Option Nat
  | .requestVote .. => none
  | .appendEntries req resp =>
      if resp.term ≤ n.log.currentTerm ∧ n.role = .leader ∧ n.log.currentTerm = req.term ∧
        resp.success then some resp.matchIndex else none
  | .installSnapshot req resp =>
      if resp.term ≤ n.log.currentTerm then some req.lastIncludedIndex else none

/-- The match indices after an answer of a peer: its record, if there is one, in
the place of what was known of the peer. -/
structure Records (n n' : RaftNode σ) (peer : NodeId) (record : Option Nat) : Prop where
  paired : n'.Paired
  matched : ∀ p, n'.matched p = if p = peer then record.getD (n.matched p) else n.matched p

omit [StateMachine σ] in
theorem KeepsMatches.records {n n' : RaftNode σ} (h : KeepsMatches n n') (peer : NodeId) :
    Records n n' peer none :=
  ⟨h.paired, fun p => (h.matched p).trans (ite_self _).symm⟩

omit [StateMachine σ] in
theorem Records.keeps {n n' n'' : RaftNode σ} {peer : NodeId} {record : Option Nat}
    (h : Records n n' peer record) (h' : KeepsMatches n' n'') : Records n n'' peer record :=
  ⟨h'.paired, fun p => (h'.matched p).trans (h.matched p)⟩

omit [StateMachine σ] in
theorem Paired.records {n : RaftNode σ} (h : n.Paired) (peer : NodeId) (i j : Nat) :
    Records n { n with
      matchIndex := n.matchIndex.insert peer i, nextIndex := n.nextIndex.insert peer j }
      peer (some i) := by
  refine ⟨h.insert peer i j, fun p => ?_⟩
  unfold RaftNode.matched
  split
  · next hp =>
    rw [hp, AList.lookup_insert]
    rfl
  · next hp => rw [AList.lookup_insert_ne hp]

/-- What an AppendEntries reply does to the match indices: its record or nothing. -/
theorem onAppendEntriesReply_records {n : RaftNode σ} (h : n.Paired) (peer : NodeId)
    (req : AppendEntriesReq) (resp : AppendEntriesResp) :
    Records n (n.onAppendEntriesReply peer req.term resp) peer
      (n.recorded (.appendEntries req resp)) := by
  unfold onAppendEntriesReply
  simp only [recorded]
  split
  · next hterm =>
    have hfollow : KeepsMatches n (n.becomeFollower resp.term 0) := h.keeps rfl rfl
    -- an answer of a later term records nothing
    rw [if_neg fun hok => Nat.not_le_of_lt hterm hok.1]
    exact hfollow.records peer
  · next hterm =>
    split
    · next hguard =>
      have hsame : KeepsMatches n n := h.keeps rfl rfl
      rw [if_neg fun hok => hguard.elim (fun hne => hne hok.2.1) fun hne => hne hok.2.2.1]
      exact hsame.records peer
    · next hguard =>
      rw [not_or, not_not, not_not] at hguard
      split
      · next hsuccess =>
        -- a success is recorded as it is, even if it is smaller than what is known
        have hrecords := h.records peer resp.matchIndex (resp.matchIndex + 1)
        rw [if_pos ⟨Nat.le_of_not_lt hterm, hguard.1, hguard.2, hsuccess⟩]
        exact hrecords.keeps (tryAdvanceCommitIndex_keeps hrecords.paired)
      · next hfailure =>
        have hnot : ¬ (resp.term ≤ n.log.currentTerm ∧ n.role = .leader ∧
            n.log.currentTerm = req.term ∧ resp.success) := fun hok => hfailure hok.2.2.2
        -- a failure moves the next index alone
        have hnext (i : Nat) :
            KeepsMatches n { n with nextIndex := n.nextIndex.insert peer i } :=
          ⟨fun v hv => (AList.mem_insert _).mpr (.inr (h v hv)), fun _ => rfl⟩
        rw [if_neg hnot]
        exact (hnext _).records peer

omit [StateMachine σ] in
theorem onInstallSnapshotReply_records {n : RaftNode σ} (h : n.Paired) (peer : NodeId)
    (req : InstallSnapshotReq) (resp : InstallSnapshotResp) :
    Records n (n.onInstallSnapshotReply peer req.lastIncludedIndex resp) peer
      (n.recorded (.installSnapshot req resp)) := by
  unfold onInstallSnapshotReply
  simp only [recorded]
  split
  · next hterm =>
    have hfollow : KeepsMatches n (n.becomeFollower resp.term 0) := h.keeps rfl rfl
    rw [if_neg (Nat.not_le_of_lt hterm)]
    exact hfollow.records peer
  · next hterm =>
    rw [if_pos (Nat.le_of_not_lt hterm)]
    exact h.records peer _ _

theorem callback_paired {n : RaftNode σ} (h : n.Paired) (peer : NodeId) (ans : Answer) :
    (n.callback peer ans).1.Paired := by
  cases ans with
  | requestVote req majority resp =>
      simp only [callback, onRequestVoteReply]
      split
      · exact h
      · split
        · exact h
        · split
          · split
            · exact becomeLeader_paired h
            · exact h
          · exact h
  | appendEntries req resp => exact (onAppendEntriesReply_records h peer req resp).paired
  | installSnapshot req resp => exact (onInstallSnapshotReply_records h peer req resp).paired

/-- What a leader's callback does to the match indices. -/
theorem callback_records {n : RaftNode σ} (h : n.Paired) (hrole : n.role = .leader)
    (peer : NodeId) (ans : Answer) :
    Records n (n.callback peer ans).1 peer (n.recorded ans) := by
  cases ans with
  | requestVote req majority resp =>
      have hnot : n.role ≠ .candidate := by simp [hrole]
      have hsame : KeepsMatches n n := h.keeps rfl rfl
      simp only [callback, onRequestVoteReply]
      rw [if_pos (.inl hnot)]
      exact hsame.records peer
  | appendEntries req resp => exact onAppendEntriesReply_records h peer req resp
  | installSnapshot req resp => exact onInstallSnapshotReply_records h peer req resp

/-- The record of the answer, if there is one, is not below what is known. -/
def Raises (n : RaftNode σ) (peer : NodeId) (ans : Answer) : Prop :=
  ∀ i ∈ n.recorded ans, n.matched peer ≤ i

instance (n : RaftNode σ) (peer : NodeId) (ans : Answer) : Decidable (n.Raises peer ans) :=
  inferInstanceAs (Decidable (∀ i ∈ n.recorded ans, _))

theorem matched_le_callback_iff {n : RaftNode σ} (h : n.Paired) (hrole : n.role = .leader)
    (peer : NodeId) (ans : Answer) :
    (∀ p, n.matched p ≤ (n.callback peer ans).1.matched p) ↔ n.Raises peer ans := by
  simp only [(callback_records h hrole peer ans).matched, Raises]
  constructor
  · intro hall i hi
    have hpeer := hall peer
    rw [if_pos rfl, Option.mem_def.mp hi] at hpeer
    exact hpeer
  · intro hraises p
    split
    · next hp =>
      subst hp
      cases hrecorded : n.recorded ans with
      | none => exact Nat.le_refl _
      | some i => exact hraises i hrecorded
    · exact Nat.le_refl _

end RaftNode

namespace Cluster

/-- A reply that reaches node `b` does not speak of less than `b` knows. -/
def RaisesMatch (b : NodeId) (c : Cluster σ) : Action → Prop
  | .reply i => ∀ r ∈ c.replies[i]?, r.sender = b → (c.nodes b).Raises r.target r.answer
  | _ => True

/-- Node `b` leads in term `t`. -/
def LeadsIn (b : NodeId) (t : Nat) (c : Cluster σ) : Prop :=
  (c.nodes b).role = .leader ∧ (c.nodes b).log.currentTerm = t

instance (b : NodeId) (c : Cluster σ) (a : Action) : Decidable (c.RaisesMatch b a) := by
  rcases a with _ | _
  case reply i => exact inferInstanceAs (Decidable (∀ r ∈ c.replies[i]?, r.sender = b → _))
  all_goals exact instDecidableTrue

instance (b : NodeId) (t : Nat) (c : Cluster σ) : Decidable (c.LeadsIn b t) :=
  inferInstanceAs (Decidable (_ ∧ _))

variable [StateMachine σ] {c c' : Cluster σ} {a : Action} {b : NodeId}

/-- Everything a step can do to the match indices of a node. -/
theorem step_matches (h : (c.nodes b).Paired) (hstep : c.step a = some c') :
    RaftNode.KeepsMatches (c.nodes b) (c'.nodes b) ∨
    (((c.nodes b).role ≠ .leader ∨ (c'.nodes b).role ≠ .leader) ∧ (c'.nodes b).Paired) ∨
    (∃ i r, a = .reply i ∧ c.replies[i]? = some r ∧ r.sender = b ∧
      c'.nodes b = ((c.nodes b).callback r.target r.answer).1) := by
  obtain heq | ⟨sent, hown⟩ | ⟨call, -, -, heq⟩ | hreply := step_node hstep b
  · rw [heq]
    exact .inl (h.keeps rfl rfl)
  · obtain ⟨-, heq, -⟩ | ⟨-, hrole, heq, -⟩ | ⟨heq, -⟩ | ⟨data, type, heq, -⟩ | ⟨heq, -⟩ |
      ⟨heq, -⟩ := ownStep_cases hown <;> rw [heq]
    · exact .inr (.inl ⟨.inr nofun, fun v hv => absurd hv (AList.notMem_empty v)⟩)
    · exact .inr (.inl ⟨.inl hrole, RaftNode.becomeCandidate_paired h⟩)
    · exact .inl (h.keeps rfl rfl)
    · exact .inl (RaftNode.propose_keeps h data type)
    · exact .inl (RaftNode.forceSnapshot_keeps h)
    · exact .inl (RaftNode.maybeSnapshot_keeps h)
  · rw [heq]
    exact .inl (RaftNode.handle_keeps h call.rpc)
  · exact .inr (.inr hreply)

theorem step_paired (h : (c.nodes b).Paired) (hstep : c.step a = some c') :
    (c'.nodes b).Paired := by
  obtain hkeeps | ⟨-, hpaired⟩ | ⟨i, r, -, -, -, heq⟩ := step_matches h hstep
  · exact hkeeps.paired
  · exact hpaired
  · rw [heq]
    exact RaftNode.callback_paired h _ _

theorem paired_of_run {members : List NodeId} {config : ClusterConfig} {threshold : Nat}
    {ok : Cluster σ → Action → Prop}
    (hrun : Run Cluster.step ok (.init members config threshold) c) (b : NodeId) :
    (c.nodes b).Paired := by
  refine hrun.invariant (P := fun c => (c.nodes b).Paired) ?_ ?_
  · exact fun v hv => absurd hv (AList.notMem_empty v)
  · exact fun _ _ _ h _ hstep => step_paired h hstep

/-- **One step of a leader**: no match index goes down exactly if the reply that
reaches the leader, if one does, is not behind. -/
theorem matched_mono_iff {t : Nat} (hpaired : (c.nodes b).Paired) (hstep : c.step a = some c')
    (hleads : c.LeadsIn b t) (hleads' : c'.LeadsIn b t) :
    (∀ p, (c.nodes b).matched p ≤ (c'.nodes b).matched p) ↔ c.RaisesMatch b a := by
  -- only an answer to this leader can lower a match index
  by_cases hreply : ∃ i r, a = .reply i ∧ c.replies[i]? = some r ∧ r.sender = b
  · obtain ⟨i, r, rfl, hr, rfl⟩ := hreply
    rw [step_reply hstep hr, RaftNode.matched_le_callback_iff hpaired hleads.1]
    refine ⟨fun hraises r' hr' _ => ?_, fun hraises => hraises r hr rfl⟩
    cases hr.symm.trans hr'
    exact hraises
  · have hvacuous : c.RaisesMatch b a := by
      cases a with
      | reply i => exact fun r hr hb => absurd ⟨i, r, rfl, hr, hb⟩ hreply
      | _ => trivial
    refine iff_of_true ?_ hvacuous
    obtain hkeeps | ⟨hrole | hrole, -⟩ | ⟨i, r, ha, hr, hb, -⟩ := step_matches hpaired hstep
    · exact fun p => (hkeeps.matched p).ge
    · exact absurd hleads.1 hrole
    · exact absurd hleads'.1 hrole
    · exact absurd ⟨i, r, ha, hr, hb⟩ hreply

end Cluster

variable [StateMachine σ]

/-- **Replication progress does not go back** while a node leads in one term and
the replies that reach it are not behind what it knows, whatever else happens:
changes of the configuration, snapshots, restarts and lost or repeated messages. -/
theorem match_progress_monotone {members : List NodeId} {config : ClusterConfig} {threshold : Nat}
    {c c' : Cluster σ} {b : NodeId} {t : Nat}
    (hreach : Run Cluster.step (fun _ _ => True) (.init members config threshold) c)
    (hrun : Run Cluster.step (fun c a => c.LeadsIn b t ∧ c.RaisesMatch b a) c c')
    (hleads : c'.LeadsIn b t) (p : NodeId) :
    (c.nodes b).matched p ≤ (c'.nodes b).matched p := by
  induction hrun with
  | refl => exact Nat.le_refl _
  | snoc hrun hok hstep ih =>
      have hpaired := Cluster.paired_of_run (hreach.trans (hrun.mono fun _ _ _ => trivial)) b
      exact (ih hok.1).trans ((Cluster.matched_mono_iff hpaired hstep hok.1 hleads).mpr hok.2 p)

/-- Node 2 has answered the leader's two requests, first the one with the no-op
alone. -/
def bothAnswered : Cluster KvStore :=
  replay Cluster.step elected [.propose 1 putCommand, .heartbeat 1, .deliver 1, .deliver 2]

/-- The answers reach the leader in their order. -/
def inOrder : Cluster KvStore := replay Cluster.step bothAnswered [.reply 0, .reply 0]

theorem match_progress_monotone_of_inOrder :
    (inOrder.nodes 1).matched 2 = 2 ∧
      (bothAnswered.nodes 1).matched 2 ≤ (inOrder.nodes 1).matched 2 := by
  have hreach : Run Cluster.step (fun _ _ => True) threeNodes.start bothAnswered :=
    .trans (run_replay (by decide +kernel) : Run _ _ _ elected) (run_replay (by decide +kernel))
  have hrun : Run Cluster.step (fun c a => c.LeadsIn 1 1 ∧ c.RaisesMatch 1 a)
      bothAnswered inOrder := run_replay (by decide +kernel)
  exact ⟨by decide +kernel, match_progress_monotone hreach hrun (by decide +kernel) 2⟩

/-- The later answer reaches the leader first. -/
def laterFirst : Cluster KvStore := replay Cluster.step bothAnswered [.reply 1]

/-- **A reply lowers a match index**: the leader has learned that node 2 holds both
entries, and then hears of the first one. -/
theorem reply_lowers_match :
    Run Cluster.step Cluster.Steady threeNodes.start laterFirst ∧
      laterFirst.step (.reply 0) = some (replay Cluster.step laterFirst [.reply 0]) ∧
      laterFirst.LeadsIn 1 1 ∧ (replay Cluster.step laterFirst [.reply 0]).LeadsIn 1 1 ∧
      (laterFirst.nodes 1).matched 2 = 2 ∧
      ((replay Cluster.step laterFirst [.reply 0]).nodes 1).matched 2 = 1 := by
  refine ⟨?_, step_replay (by decide +kernel), by decide +kernel, by decide +kernel,
    by decide +kernel, by decide +kernel⟩
  exact .trans (run_replay (by decide +kernel) : Run _ _ _ elected)
    (.trans (run_replay (by decide +kernel) : Run _ _ _ bothAnswered)
      (run_replay (by decide +kernel)))

end KvRaft
