import KvRaft.Safety
import KvRaft.ThreadEffect

/-!
# KvRaft.CommitQuorum

Who stands behind an index that `tryAdvanceCommitIndex` commits.  It sorts all
of `matchIndex_` and takes the value at the middle of the voters, whoever the
match indices belong to.

* `commit_has_quorum` — more than half of the voters hold the index, as long as
  no voter leaves the configuration of a leader and only voters answer
  (`Threads.KeepsVoters`), over any interleaving of threads;
* `removed_voter_commits` — the match index of a voter that was removed goes on
  counting.
-/

namespace KvRaft

variable {σ : Type}

/-- The configuration an entry puts in force. -/
def LogEntry.config? (e : LogEntry) : Option ClusterConfig :=
  match e.type with
  | .config => (ClusterConfig.decode.run' e.data).toOption
  | _ => none

namespace RaftNode

/-- More than half of the voters in force hold the index: the node itself, or
peers by its match index. -/
def HasQuorum (n : RaftNode σ) (i : Nat) : Prop :=
  n.config.voters.length < 2 * n.config.voters.countP fun v =>
    (v = n.id ∧ i ≤ n.log.lastIndex) ∨ i ≤ (n.matchIndex.lookup v).getD 0

instance (n : RaftNode σ) (i : Nat) : Decidable (n.HasQuorum i) :=
  inferInstanceAs (Decidable (_ < _))

/-- A leader is a voter and has match indices of voters only. -/
def Tracks (n : RaftNode σ) : Prop :=
  n.role = .leader → n.id ∈ n.config.voters ∧ ∀ v ∈ n.matchIndex, v ∈ n.config.voters

theorem Tracks.congr {n n' : RaftNode σ} (h : n.Tracks) (hid : n'.id = n.id)
    (hrole : n'.role = n.role) (hconfig : n'.config = n.config)
    (hmatch : n'.matchIndex = n.matchIndex) : n'.Tracks := by
  unfold Tracks
  rw [hid, hrole, hconfig, hmatch]
  exact h

theorem Tracks.of_not_leader {n : RaftNode σ} (h : n.role ≠ .leader) : n.Tracks :=
  fun hl => absurd hl h

/-- A reply of a voter. -/
theorem Tracks.insert {n : RaftNode σ} (h : n.Tracks) {peer : NodeId}
    (hpeer : n.role = .leader → peer ∈ n.config.voters) (j : Nat)
    (nextIndex : AList fun _ : NodeId => Nat) :
    Tracks { n with matchIndex := n.matchIndex.insert peer j, nextIndex } := by
  intro hl
  refine ⟨(h hl).1, fun v hv => ?_⟩
  rcases (AList.mem_insert _).mp hv with rfl | hv
  · exact hpeer hl
  · exact (h hl).2 v hv

theorem Tracks.castVote {n : RaftNode σ} (h : n.Tracks) (req : RequestVoteReq) :
    (n.castVote req).1.Tracks := by
  unfold RaftNode.castVote
  split
  · exact h.congr rfl rfl rfl rfl
  · exact h

/-- What a commit needs. -/
theorem Tracks.hasQuorum {n : RaftNode σ} (h : n.Tracks) (hl : n.role = .leader) {i : Nat}
    (hi : n.sortedMatches[n.config.voters.length / 2]? = some i) : n.HasQuorum i := by
  obtain ⟨hself, hpeers⟩ := h hl
  have hkeys : ∀ v j, n.matchIndex.lookup v = some j → v ≠ n.id → v ∈ n.config.voters :=
    fun v j hj _ => hpeers v (AList.lookup_isSome.mp (by rw [hj]; rfl))
  obtain ⟨q, hq, hreach⟩ := majority_of_sortedMatches hself hkeys hi
  refine hq.countP fun v hv => ?_
  rcases hreach v hv with hown | ⟨j, hj, -, hij⟩
  · simp [hown]
  · simp [hj, hij]

/-! ## The configuration changes -/

theorem mem_foldl_trackVoter {last : Nat} {voters : List NodeId} {n : RaftNode σ} {v : NodeId}
    (h : v ∈ (voters.foldl (trackVoter last) n).matchIndex) : v ∈ n.matchIndex ∨ v ∈ voters := by
  induction voters generalizing n with
  | nil => exact .inl h
  | cons x voters ih =>
      rcases ih h with hm | hv
      · unfold trackVoter at hm
        split at hm
        · exact .inl hm
        · rcases (AList.mem_insert _).mp hm with rfl | hm
          · exact .inr List.mem_cons_self
          · exact .inl hm
      · exact .inr (List.mem_cons_of_mem x hv)

theorem applyConfigEntry_config (n : RaftNode σ) {e : LogEntry} (he : e.type = .config) :
    (n.applyConfigEntry e).config = e.config?.getD n.config := by
  unfold applyConfigEntry LogEntry.config?
  rw [he]
  cases (ClusterConfig.decode.run' e.data : Except String ClusterConfig) with
  | error => rfl
  | ok config =>
      simp only
      split
      · obtain ⟨ni, mi, h⟩ := foldl_trackVoter n.log.lastIndex config.voters { n with config }
        rw [h]
        rfl
      · rfl

/-- The match indices after a configuration entry. -/
theorem mem_applyConfigEntry {n : RaftNode σ} {e : LogEntry} (he : e.type = .config) {v : NodeId}
    (h : v ∈ (n.applyConfigEntry e).matchIndex) :
    v ∈ n.matchIndex ∨ v ∈ (n.applyConfigEntry e).config.voters := by
  rw [n.applyConfigEntry_config he]
  unfold applyConfigEntry at h
  unfold LogEntry.config?
  rw [he]
  cases hdecode : (ClusterConfig.decode.run' e.data : Except String ClusterConfig) with
  | error => rw [hdecode] at h; exact .inl h
  | ok config =>
      rw [hdecode] at h
      simp only at h
      split at h
      · exact mem_foldl_trackVoter (n := { n with config }) h
      · exact .inl h

theorem Tracks.applyOne [StateMachine σ] {n : RaftNode σ} (h : n.Tracks) {e : LogEntry}
    (hkeeps : n.role = .leader → ∀ c ∈ e.config?, ∀ v ∈ n.config.voters, v ∈ c.voters) :
    (n.applyOne e).1.Tracks := by
  -- only a configuration changes who is tracked
  by_cases he : e.type = .config
  · have hone : (n.applyOne e).1 =
        { n.applyConfigEntry e with applied := n.applied ++ [⟨e, n.sm⟩] } := by
      simp only [RaftNode.applyOne, he]
    obtain ⟨_, _, _, heq⟩ := n.applyConfigEntry_eq e
    have hid : (n.applyConfigEntry e).id = n.id := by rw [heq]
    have hrole : (n.applyConfigEntry e).role = n.role := by rw [heq]
    rw [hone]
    intro hl
    replace hl : n.role = .leader := hrole ▸ hl
    -- the old voters are all among the new ones
    have hold : ∀ v ∈ n.config.voters, v ∈ (n.applyConfigEntry e).config.voters := by
      rw [n.applyConfigEntry_config he]
      cases hc : e.config? with
      | none => exact fun v hv => hv
      | some c => exact hkeeps hl c hc
    change (n.applyConfigEntry e).id ∈ _ ∧ ∀ v ∈ (n.applyConfigEntry e).matchIndex, _
    rw [hid]
    refine ⟨hold _ (h hl).1, fun v hv => ?_⟩
    -- a peer is tracked from before, or because the entry names it
    rcases mem_applyConfigEntry he hv with hv | hv
    · exact hold v ((h hl).2 v hv)
    · exact hv
  · unfold RaftNode.applyOne
    cases htype : e.type with
    | config => exact absurd htype he
    | _ => exact h.congr rfl rfl rfl rfl

end RaftNode

/-! ## Along a run -/

/-- The conditions under which a leader's match indices are those of voters:
it takes office as a voter, a configuration it applies has all its voters, and
only voters answer it. -/
def Stretch.KeepsVoters (n : RaftNode σ) : Stretch → Prop
  | .becomeLeader _ => n.role = .candidate → n.id ∈ n.config.voters
  | .applyLoop (e :: _) =>
      n.role = .leader → ∀ c ∈ e.config?, ∀ v ∈ n.config.voters, v ∈ c.voters
  | .onAppendEntriesReply peer _ _ | .onInstallSnapshotReply peer _ _ =>
      n.role = .leader → peer ∈ n.config.voters
  | _ => True

instance (n : RaftNode σ) (k : Stretch) : Decidable (k.KeepsVoters n) := by
  rcases k with _ | _
  case becomeLeader | onAppendEntriesReply | onInstallSnapshotReply =>
    exact inferInstanceAs (Decidable (_ → _))
  case applyLoop toApply =>
    rcases toApply with _ | _
    · exact instDecidableTrue
    · exact inferInstanceAs (Decidable (_ → ∀ c ∈ _, _))
  all_goals exact instDecidableTrue

def Threads.KeepsVoters (s : Threads σ) (a : Threads.Action) : Prop :=
  ∀ k ∈ s.running a, k.KeepsVoters s.node

instance (s : Threads σ) (a : Threads.Action) : Decidable (s.KeepsVoters a) :=
  inferInstanceAs (Decidable (∀ k ∈ s.running a, _))

variable [StateMachine σ]

/-- What a stretch makes of the leader's match indices. -/
theorem Stretch.tracks {n : RaftNode σ} {k : Stretch} (h : n.Tracks) (hok : k.KeepsVoters n) :
    (k.run n).shared.Tracks := by
  have hacts := k.acts n
  generalize (k.run n).shared = n' at hacts
  cases hacts with
  | follow | stand => exact .of_not_leader nofun
  | lead won hrole =>
      refine fun _ => ⟨hok hrole, fun v hv => ?_⟩
      exact (RaftNode.mem_foldl_insert.mp hv).resolve_left (AList.notMem_empty v)
  | apply e => exact h.applyOne hok
  | vote req | voteLater req => exact h.castVote req
  | matched | installed => exact h.insert hok _ _
  | idle | propose | change | commit | claim | store | reject | accept | install | compact
  | count | backOff => exact h.congr rfl rfl rfl rfl

theorem Threads.tracks_of_run {id : NodeId} {threshold : Nat} {config : ClusterConfig}
    {s : Threads σ} (hrun : Run Threads.step Threads.KeepsVoters (.init id threshold config) s) :
    s.node.Tracks := by
  refine hrun.invariant (P := fun s => s.node.Tracks) (.of_not_leader nofun) ?_
  intro s a s' h hok hstep
  obtain ⟨entry, -, rfl⟩ | ⟨i, k, ks, rfl, hi, rfl⟩ | ⟨-, rfl⟩ := Threads.step_cases hstep
  · exact h
  · exact Stretch.tracks h (hok k (Threads.running_of_getElem? hi))
  · exact .of_not_leader nofun

/-- **A commit needs a quorum of the configuration in force**, in every run that
meets `Threads.KeepsVoters`: when `tryAdvanceCommitIndex` raises the commit
index, more than half of the voters hold the new one. -/
theorem commit_has_quorum {id : NodeId} {threshold : Nat} {config : ClusterConfig}
    {s s' : Threads σ} {i : Nat}
    (hrun : Run Threads.step Threads.KeepsVoters (.init id threshold config) s)
    (hrunning : s.running (.run i) = some .tryAdvanceCommitIndex)
    (hstep : s.step (.run i) = some s') (hraised : s.node.commitIndex < s'.node.commitIndex) :
    s.node.HasQuorum s'.node.commitIndex := by
  have htracks := Threads.tracks_of_run hrun
  -- the section itself decides; arrivals and restarts raise nothing
  obtain ⟨_, hno, -⟩ | ⟨j, k, ks, heq, hi, rfl⟩ | ⟨hno, -⟩ := Threads.step_cases hstep
  · contradiction
  · cases heq
    rw [Threads.running_of_getElem? hi] at hrunning
    cases hrunning
    change s.node.commitIndex <
      (Stretch.run s.node .tryAdvanceCommitIndex).shared.commitIndex at hraised
    change s.node.HasQuorum (Stretch.run s.node .tryAdvanceCommitIndex).shared.commitIndex
    simp only [Stretch.run] at hraised ⊢
    split at hraised
    · exact absurd hraised (Nat.lt_irrefl _)
    · next hrole =>
      rw [if_neg hrole]
      split at hraised
      · exact absurd hraised (Nat.lt_irrefl _)
      · next candidate hcandidate =>
        split at hraised
        · next hcommit =>
          -- the one branch that sets the commit index
          simp only [if_pos hcommit]
          exact htracks.hasQuorum (Decidable.not_not.mp hrole) hcandidate
        · exact absurd hraised (Nat.lt_irrefl _)
  · contradiction

/-! ## A server is added, a server is removed -/

/-- Node `peer` tells the leader of term 1 that it holds the entries up to `i`. -/
def acknowledges (peer : NodeId) (i : Nat) : Entry :=
  .reply peer (.appendEntries ⟨1, 1, 0, 0, [], 0⟩ ⟨1, true, i, 0, 0⟩)

open Threads.Action (start run)

/-- Node 1 is elected by node 2, adds node 4 with the help of node 2 and
proposes a command, which node 2 gets first and then node 4. -/
def serverAdded : Threads KvStore :=
  replay Threads.step firstOfThree
    ([start .timeout, run 0,
      start (.reply 2 (.requestVote ⟨1, 1, 0, 0⟩ 2 ⟨1, true⟩))] ++ Threads.runs 1 4 ++
      [start (.changeServer (.add 4 []))] ++ Threads.runs 2 3 ++
      [start (acknowledges 2 2)] ++ Threads.runs 3 8 ++
      [start (.propose putCommand)] ++ Threads.runs 4 2 ++
      [start (acknowledges 2 3)] ++ Threads.runs 5 2 ++
      [start (acknowledges 4 3)] ++ Threads.runs 6 1)

theorem commit_has_quorum_of_serverAdded :
    serverAdded.node.config.voters = [1, 2, 3, 4] ∧ serverAdded.node.commitIndex = 2 ∧
      (replay Threads.step serverAdded [.run 6]).node.commitIndex = 3 ∧
      serverAdded.node.HasQuorum (replay Threads.step serverAdded [.run 6]).node.commitIndex := by
  have hrun : Run Threads.step Threads.KeepsVoters firstOfThree serverAdded :=
    run_replay (by decide +kernel)
  have hstep : serverAdded.step (.run 6) = some (replay Threads.step serverAdded [.run 6]) :=
    step_replay (by decide +kernel)
  refine ⟨by decide +kernel, by decide +kernel, by decide +kernel, ?_⟩
  exact commit_has_quorum hrun (by decide +kernel) hstep (by decide +kernel)

/-- Node 1 removes node 3 and then proposes a command; node 3 gets both, and
its first answer commits the removal. -/
def voterRemoved : Cluster KvStore :=
  replay Cluster.step elected
    [.removeServer 1 3, .heartbeat 1, .propose 1 putCommand, .heartbeat 1, .deliver 4, .deliver 5,
      .reply 0]

/-- The second answer of node 3 commits the command, which of the voters 1 and
2 only node 1 holds. -/
theorem removed_voter_commits :
    Run Cluster.step (fun _ _ => True) threeNodes.start voterRemoved ∧
      voterRemoved.step (.reply 0) = some (replay Cluster.step voterRemoved [.reply 0]) ∧
      (voterRemoved.nodes 1).config.voters = [1, 2] ∧
      (voterRemoved.nodes 1).commitIndex = 2 ∧
      ((replay Cluster.step voterRemoved [.reply 0]).nodes 1).commitIndex = 3 ∧
      ((replay Cluster.step voterRemoved [.reply 0]).nodes 1).config.voters = [1, 2] ∧
      ¬((replay Cluster.step voterRemoved [.reply 0]).nodes 1).HasQuorum 3 := by
  refine ⟨.trans (run_replay (by decide +kernel) : Run _ _ _ elected)
    (run_replay (by decide +kernel)), step_replay (by decide +kernel), ?_⟩
  refine ⟨by decide +kernel, by decide +kernel, by decide +kernel, by decide +kernel,
    by decide +kernel⟩

end KvRaft
