import KvRaft.Frame
import KvRaft.Refine.Node

/-!
# KvRaft.Refine.Sending

What a node sends means what the protocol says: entries and snapshots of a
leader, and the requests of a candidate for votes.  Standing for election and
becoming leader keep the relation of `KvRaft.Refine.Relation`.
-/

namespace KvRaft

open Replica

variable {σ : Type} [StateMachine σ] {k : Scope} {voters : List NodeId} {s : Ghost}
  {n : NodeId} {nd : RaftNode σ}

/-! ## What a leader sends -/

namespace Tracks

omit [StateMachine σ] in
/-- Entries a leader sends are a piece of its log. -/
theorem appendCall (h : Tracks k voters s n nd) (hr : nd.role = .leader) {peer : NodeId}
    (hmem : peer ∈ voters) (hne : peer ≠ n)
    (hnext : nd.log.snapshotIndex < (nd.nextIndex.lookup peer).getD 1) :
    AppendCall k voters s n peer (nd.appendEntriesReq peer) := by
  obtain ⟨hg, hnode⟩ := h
  have hvi := hnode.votes
  have hl := hvi.leader hr
  have hterm : (nd.appendEntriesReq peer).term = s.term n := hvi.term
  refine ⟨⟨by rw [hterm]; exact hl, hmem, hne⟩, fun e he => ?_, fun hk => ?_, fun hk => ?_⟩
  · exact hvi.plain e (nd.log.mem_of_mem_entriesAfter _ he)
  · -- the request is a slice of the leader's log, which is the history of its term
    have hrep := (hnode.logs hk).log
    obtain ⟨hlog, _⟩ := (hg.logs hk).lead _ n hl rfl
    rw [Slice, hterm, ← hlog]
    simp only [RaftNode.appendEntriesReq]
    rw [hrep.termAt (by omega), hrep.entriesAfter (by omega), if_neg (by decide)]
    by_cases hin : (nd.nextIndex.lookup peer).getD 1 - 1 ≤ (s.log n).length
    · exact .inl ⟨hin, rfl, List.take_prefix _ _⟩
    · -- a next index past the end of the log sends nothing
      refine .inr ⟨by omega, termAt_of_length_lt (by omega), ?_⟩
      rw [List.drop_eq_nil_of_le (by omega), List.take_nil]
  · have hk' : k ≠ .votes := by rw [hk]; simp
    have hm := hnode.commits hk
    obtain ⟨hlog, hclean⟩ := (hg.logs hk').lead _ n hl rfl
    rw [hterm, ← hlog]
    refine ⟨?_, hm.committed⟩
    rw [← hclean]
    exact hm.commit_le

/-- A snapshot a leader sends covers a committed prefix. -/
theorem snapshotCall (h : Tracks k voters s n nd) (hr : nd.role = .leader) {peer : NodeId}
    (hmem : peer ∈ voters) (hne : peer ≠ n)
    (hnext : (nd.nextIndex.lookup peer).getD 1 ≤ nd.log.snapshotIndex) :
    SnapshotCall k voters s n peer nd.installSnapshotReq := by
  obtain ⟨hg, hnode⟩ := h
  have hvi := hnode.votes
  have hl := hvi.leader hr
  have hterm : nd.installSnapshotReq.term = s.term n := hvi.term
  refine ⟨⟨by rw [hterm]; exact hl, hmem, hne⟩, fun hk => ?_, fun hk => ?_⟩
  · -- without snapshots no next index can lie below one
    rw [(hnode.uncompacted hk).2] at hnext
    cases hlook : nd.nextIndex.lookup peer with
    | none => rw [hlook] at hnext; simp at hnext
    | some i =>
        rw [hlook, Option.getD_some] at hnext
        have := hvi.next_pos peer i hlook
        omega
  · have hk' : k ≠ .votes := by rw [hk]; simp
    have hm := hnode.commits hk
    have hrep := (hnode.logs hk').log
    have hlen : ((s.log n).take nd.log.snapshotIndex).length = nd.log.snapshotIndex := by
      rw [List.length_take]
      exact Nat.min_eq_left hrep.snap_le
    -- a snapshot covers what is applied, and that is committed
    refine ⟨(s.log n).take nd.log.snapshotIndex, ?_, hlen, ?_⟩
    · rw [hterm]
      exact hm.applied_committed.of_isPrefix (List.take_prefix_take_left hm.snap_le)
    · rw [lastTerm, hlen, termAt_take (Nat.le_refl _) hrep.snap_le]
      exact hrep.snapshotTerm.symm

/-- What a leader sends means what the protocol says. -/
theorem broadcast (h : Tracks k voters s n nd) :
    ∀ call ∈ nd.broadcastAppendEntries, CallInv k voters s call ∧ call.voteKey = none := by
  intro call hcall
  unfold RaftNode.broadcastAppendEntries at hcall
  split at hcall
  · simp at hcall
  · next hr =>
    have hr : nd.role = .leader := by simpa using hr
    obtain ⟨peer, hpeer, rfl⟩ := List.mem_map.mp hcall
    obtain ⟨hmem, hne⟩ := List.mem_filter.mp hpeer
    have hvi := h.node.votes
    rw [hvi.config] at hmem
    rw [hvi.id] at hne
    have hne : peer ≠ n := by simpa using hne
    by_cases hnext : (nd.nextIndex.lookup peer).getD 1 ≤ nd.log.snapshotIndex
    · simp only [CallInv, Call.voteKey, RaftNode.replicateTo, if_pos hnext, hvi.id]
      exact ⟨h.snapshotCall hr hmem hne hnext, trivial⟩
    · simp only [CallInv, Call.voteKey, RaftNode.replicateTo, if_neg hnext, hvi.id]
      exact ⟨h.appendCall hr hmem hne (by omega), trivial⟩

/-! ## Elections -/

/-- `becomeLeader`, once the votes are there. -/
theorem becomeLeader (h : Tracks k voters s n nd) (hr : nd.role = .candidate) (hn : n ∈ voters)
    (hmaj : voters.length / 2 + 1 ≤ nd.votes (s.term n)) :
    ∃ s', Moves n noVote s s' ∧ Tracks k voters s' n nd.becomeLeader.1 ∧
      ∀ call ∈ nd.becomeLeader.2, CallInv k voters s' call ∧ call.voteKey = none := by
  obtain ⟨hun, hlead⟩ := h.lead hr hn hmaj
  obtain ⟨s₁, hmv₁, hprop⟩ := hlead.propose [] .noOp (by simp)
  obtain ⟨s₂, hmv₂, hadv⟩ := hprop.tryAdvanceCommitIndex
  have hmv : Moves n noVote s s₂ := ((Moves.elect h.global.elections n hun).trans hmv₁).trans hmv₂
  rw [RaftNode.becomeLeader_snd hr, RaftNode.becomeLeader_fst hr]
  exact ⟨s₂, hmv, hadv, hadv.broadcast⟩

/-- A voter that stands, with its own vote counted. -/
def candidate (s : Ghost) (n : NodeId) (nd : RaftNode σ) : RaftNode σ :=
  { nd.stand with votes := Function.update nd.votes (s.term n + 1) 1 }

omit [StateMachine σ] in
/-- A voter that stands counts its own vote first. -/
theorem candidacy (h : Tracks k voters s n nd) (hn0 : n ≠ 0) (hn : n ∈ voters) :
    Tracks k voters ((s.stand n).count n n) n (candidate s n nd) ∧
      ((s.stand n).count n n).term n = s.term n + 1 ∧
      ((s.stand n).count n n).tally n (s.term n + 1) = [n] := by
  have hE := h.global.elections
  have hterm : (s.stand n).term n = s.term n + 1 := by simp [State.stand]
  have hstand := h.stand (f := Function.update nd.votes (s.term n + 1) 0) hn0
    (fun _ => Function.update_self ..)
  -- its own vote is not among those counted, for none are
  have hnone : (s.stand n).tally n (s.term n + 1) = [] := by
    have hcount := (hstand.node.votes.candidate rfl).2.2 hn
    rw [hterm] at hcount
    refine List.eq_nil_of_length_eq_zero ?_
    rw [← hcount]
    exact Function.update_self ..
  have hcounted := hstand.count rfl hn (hstand.node.votes.candidate rfl).1
    (by rw [hterm, hnone]; simp) hn
  have hvotes : Function.update (Function.update nd.votes (s.term n + 1) 0) (s.term n + 1)
      (Function.update nd.votes (s.term n + 1) 0 (s.term n + 1) + 1)
      = Function.update nd.votes (s.term n + 1) 1 := by
    rw [Function.update_self, Function.update_idem]
  refine ⟨?_, hterm, ?_⟩
  · rw [hterm] at hcounted
    rw [candidate, ← hvotes]
    exact hcounted
  · simp only [State.count, hterm, set₂_self, hnone]

/-- What `becomeCandidate` comes to: the node stands in the next term, and the requests
for votes it sends are the first in that term. -/
structure Stands (k : Scope) (voters : List NodeId) (s s' : Ghost) (n : NodeId)
    (result : RaftNode σ × List Call) : Prop where
  moves : Moves n (fun _ t => t = s.term n + 1) s s'
  tracks : Tracks k voters s' n result.1
  sent : ∀ call ∈ result.2, CallInv k voters s' call
  once : (result.2.filterMap Call.voteKey).Nodup
  first : ∀ key ∈ result.2.filterMap Call.voteKey,
    key.1 = n ∧ key.2.2 = s.term n + 1 ∧ key.2.1 ∉ s'.tally n (s.term n + 1)

/-- A node that is not a voting member stands but asks for no votes. -/
theorem stands_aside (h : Tracks k voters s n nd) (hn0 : n ≠ 0) (hsome : voters ≠ [])
    (hn : n ∉ voters) : Stands k voters s (s.stand n) n nd.becomeCandidate := by
  have hvi := h.node.votes
  have hcfg : nd.stand.config.voters = voters := hvi.config
  have hid : nd.stand.id = n := hvi.id
  have hno : nd.stand.config.hasVoter nd.stand.id = false := by
    rw [Bool.eq_false_iff, Ne, ClusterConfig.hasVoter_iff, hcfg, hid]
    exact hn
  have heq : nd.becomeCandidate = (nd.stand, []) := by
    simp only [RaftNode.becomeCandidate]
    rw [if_pos ⟨hno, by rw [hcfg]; exact List.length_pos_iff.mpr hsome⟩]
  rw [heq]
  refine ⟨.stand h.global.elections n, h.stand hn0 fun hmem => absurd hmem hn, ?_, ?_, ?_⟩ <;> simp

theorem becomeCandidate_eq (h : Tracks k voters s n nd) (hn : n ∈ voters) :
    nd.becomeCandidate = if 1 ≥ voters.length / 2 + 1 then (candidate s n nd).becomeLeader
      else (candidate s n nd, (voters.filter (· ≠ n)).map fun peer =>
        ⟨n, peer, nd.incarnation,
          .requestVote (candidate s n nd).requestVoteReq (voters.length / 2 + 1)⟩) := by
  have hvi := h.node.votes
  have hcfg : nd.stand.config.voters = voters := hvi.config
  have hid : nd.stand.id = n := hvi.id
  have hcur : nd.stand.log.currentTerm = s.term n + 1 := congrArg (· + 1) hvi.term
  have hyes : nd.stand.config.hasVoter nd.stand.id = true := by
    rw [ClusterConfig.hasVoter_iff, hcfg, hid]
    exact hn
  have hmaj : (candidate s n nd).majority = voters.length / 2 + 1 :=
    congrArg (fun l : List NodeId => l.length / 2 + 1) hcfg
  simp only [RaftNode.becomeCandidate]
  rw [if_neg (by rw [hyes]; simp), hcur]
  change (if 1 ≥ (candidate s n nd).majority then (candidate s n nd).becomeLeader
    else (candidate s n nd, (nd.stand.config.voters.filter (· ≠ nd.stand.id)).map fun peer =>
      ⟨nd.stand.id, peer, nd.incarnation,
        .requestVote (candidate s n nd).requestVoteReq (candidate s n nd).majority⟩)) = _
  rw [hmaj, hcfg, hid]

omit [StateMachine σ] in
/-- Standing and counting one's own vote. -/
theorem moves_candidacy (h : Tracks k voters s n nd) :
    Moves n (fun _ t => t = s.term n + 1) s ((s.stand n).count n n) := by
  refine (Moves.stand h.global.elections n).trans ((Moves.count _ n n).mono fun _ t ht => ?_)
  rw [ht.2]
  simp [State.stand]

/-- The only voter has a majority with its own vote. -/
theorem stands_alone (h : Tracks k voters s n nd) (hn0 : n ≠ 0) (hn : n ∈ voters)
    (hone : voters.length / 2 + 1 ≤ 1) :
    ∃ s', Stands k voters s s' n (candidate s n nd).becomeLeader := by
  obtain ⟨hcand, hterm, -⟩ := h.candidacy hn0 hn
  have hmaj : voters.length / 2 + 1 ≤
      (candidate s n nd).votes (((s.stand n).count n n).term n) := by
    rw [hterm]
    change _ ≤ Function.update nd.votes (s.term n + 1) 1 (s.term n + 1)
    rw [Function.update_self]
    exact hone
  obtain ⟨s', hmv, ht, hcalls⟩ := hcand.becomeLeader rfl hn hmaj
  have hkeys : (candidate s n nd).becomeLeader.2.filterMap Call.voteKey = [] :=
    List.filterMap_eq_nil_iff.mpr fun call hc => (hcalls call hc).2
  refine ⟨s', h.moves_candidacy.trans hmv.of_noVote, ht, fun call hc => (hcalls call hc).1,
    ?_, ?_⟩ <;>
    simp [hkeys]

theorem voteKeys_requests (n incarnation majority : Nat) (req : RequestVoteReq)
    (peers : List NodeId) :
    (peers.map fun peer => (⟨n, peer, incarnation, .requestVote req majority⟩ : Call)).filterMap
      Call.voteKey = peers.map fun peer => (n, peer, req.term) := by
  induction peers with
  | nil => rfl
  | cons peer peers ih => exact congrArg (_ :: ·) ih

omit [StateMachine σ] in
/-- The other voters are asked, each once. -/
theorem stands_asking (h : Tracks k voters s n nd) (hn0 : n ≠ 0) (hvoters : voters.Nodup)
    (hn : n ∈ voters) :
    Stands k voters s ((s.stand n).count n n) n (candidate s n nd,
      (voters.filter (· ≠ n)).map fun peer => ⟨n, peer, nd.incarnation,
        .requestVote (candidate s n nd).requestVoteReq (voters.length / 2 + 1)⟩) := by
  obtain ⟨hcand, hterm, htally⟩ := h.candidacy hn0 hn
  have hcur : (candidate s n nd).requestVoteReq.term = s.term n + 1 :=
    congrArg (· + 1) h.node.votes.term
  refine ⟨h.moves_candidacy, hcand, fun call hc => ?_, ?_, fun key hkey => ?_⟩
  · obtain ⟨peer, hpeer, rfl⟩ := List.mem_map.mp hc
    refine ⟨h.node.votes.id, hn, (List.mem_filter.mp hpeer).1, rfl, ?_, fun hk => ?_⟩
    · rw [hcur]
      simp [State.count, State.stand]
    · -- the log it stands with is the one it has now
      have hlogs := hcand.node.logs hk
      have hstood := hlogs.stood rfl
      rw [hterm] at hstood
      rw [hcur, ← hstood]
      exact ⟨hlogs.log.lastIndex, hlogs.log.lastTerm⟩
  · rw [voteKeys_requests]
    refine (hvoters.filter _).map ?_
    intro a b hab
    exact congrArg (fun x => x.2.1) hab
  · rw [voteKeys_requests] at hkey
    -- only others are asked, and the tally holds the candidate alone
    obtain ⟨peer, hpeer, rfl⟩ := List.mem_map.mp hkey
    refine ⟨rfl, hcur, ?_⟩
    rw [htally, List.mem_singleton]
    simpa using (List.mem_filter.mp hpeer).2

/-- `becomeCandidate`: the node stands in the next term and counts its own
vote; the requests it sends are the first in that term. -/
theorem becomeCandidate (h : Tracks k voters s n nd) (hn0 : n ≠ 0) (hvoters : voters.Nodup)
    (hsome : voters ≠ []) : ∃ s', Stands k voters s s' n nd.becomeCandidate := by
  by_cases hn : n ∈ voters
  · rw [h.becomeCandidate_eq hn]
    split
    · next hone => exact h.stands_alone hn0 hn hone
    · exact ⟨_, h.stands_asking hn0 hvoters hn⟩
  · exact ⟨_, h.stands_aside hn0 hsome hn⟩

end Tracks

end KvRaft
