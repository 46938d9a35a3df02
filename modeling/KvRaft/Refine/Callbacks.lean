import KvRaft.Refine.Handlers

/-!
# KvRaft.Refine.Callbacks

Reply callbacks, snapshots a node takes itself and restarts keep the relation
of `KvRaft.Refine.Relation`.
-/

namespace KvRaft

open Replica

variable {σ : Type} [StateMachine σ] {k : Scope} {voters : List NodeId} {s : Ghost}
  {n peer : NodeId} {nd : RaftNode σ}

namespace Tracks

/-! ## Reply callbacks -/

/-- The vote callback counts a granted vote once, and makes the candidate
leader when it has a majority. -/
theorem onRequestVoteReply (h : Tracks k voters s n nd) {req : RequestVoteReq} {majority : Nat}
    {resp : RequestVoteResp} (hc : VoteCall k voters s n peer req majority)
    (hvote : resp.voteGranted = true → s.vote peer req.term = some n)
    (hnew : peer ∉ s.tally n req.term) :
    ∃ s', Moves n (fun v t => v = peer ∧ t = req.term) s s' ∧
      Tracks k voters s' n (nd.onRequestVoteReply req.term majority resp).1 ∧
      ∀ call ∈ (nd.onRequestVoteReply req.term majority resp).2,
        CallInv k voters s' call ∧ call.voteKey = none := by
  have hvi := h.node.votes
  unfold RaftNode.onRequestVoteReply
  split
  · -- an answer for another term, or for a node that stands no more
    exact ⟨s, .refl n _ s, h, by simp⟩
  · next hrole =>
    rw [not_or, not_not, not_not] at hrole
    obtain ⟨hr, hcur⟩ := hrole
    have hterm : req.term = s.term n := hcur.symm.trans hvi.term
    split
    · exact ⟨_, .raise s n resp.term, h.becomeFollower resp.term 0, by simp⟩
    · split
      · next hgranted =>
        -- the peer is counted once, and the counter follows the tally
        have hcount := h.count hr hc.sender_mem (hterm ▸ hvote hgranted) (hterm ▸ hnew)
            hc.target_mem
        have hmv : Moves n (fun v t => v = peer ∧ t = req.term) s (s.count n peer) := by
          rw [hterm]; exact .count s n peer
        rw [hterm]
        simp only
        split
        · next hmaj =>
          obtain ⟨s', hmv', ht, hcalls⟩ := hcount.becomeLeader hr hc.sender_mem (by
            rw [← hc.majority]
            change majority ≤ Function.update nd.votes (s.term n) _ (s.term n)
            rw [Function.update_self]
            exact hmaj)
          exact ⟨s', (hterm ▸ hmv).trans hmv'.of_noVote, ht, hcalls⟩
        · exact ⟨_, hterm ▸ hmv, hcount, by simp⟩
      · exact ⟨s, .refl n _ s, h, by simp⟩

omit [StateMachine σ] in
/-- A leader notes how far a peer has got. -/
theorem setMatch (h : Tracks k voters s n nd) {i j : Nat} (hj : 0 < j)
    (hm : k = .commits → nd.role = .leader → peer ∈ voters ∧ Matched s peer (s.term n) i) :
    Tracks k voters s n
      { nd with
        matchIndex := nd.matchIndex.insert peer i, nextIndex := nd.nextIndex.insert peer j } := by
  obtain ⟨hg, hnode⟩ := h
  have hvi := hnode.votes
  refine ⟨hg, { hvi with next_pos := fun v x hv => ?_ }, fun hk => { hnode.logs hk with },
    hnode.uncompacted, fun hk => { hnode.commits hk with matched := fun hr v x hv hne => ?_ },
    hnode.led⟩
  · by_cases hvp : v = peer
    · subst hvp
      rw [AList.lookup_insert] at hv
      exact Option.some.inj hv ▸ hj
    · rw [AList.lookup_insert_ne hvp] at hv
      exact hvi.next_pos v x hv
  · by_cases hvp : v = peer
    · subst hvp
      rw [AList.lookup_insert] at hv
      exact Option.some.inj hv ▸ hm hk hr
    · rw [AList.lookup_insert_ne hvp] at hv
      exact (hnode.commits hk).matched hr v x hv hne

theorem onAppendEntriesReply (h : Tracks k voters s n nd) {t : Nat} {resp : AppendEntriesResp}
    (hc : FromLeader voters s n peer t)
    (hm : k = .commits → resp.success = true → Matched s peer t resp.matchIndex) :
    ∃ s', Moves n noVote s s' ∧ Tracks k voters s' n (nd.onAppendEntriesReply peer t resp) := by
  have hvi := h.node.votes
  unfold RaftNode.onAppendEntriesReply
  split
  · exact ⟨_, .raise s n resp.term, h.becomeFollower resp.term 0⟩
  · split
    · exact ⟨s, .refl n _ s, h⟩
    · next hrole =>
      rw [not_or, not_not, not_not] at hrole
      obtain ⟨hr, hcur⟩ := hrole
      have hterm : s.term n = t := hvi.term.symm.trans hcur
      split
      · next hok =>
        -- a match index is raised, and the quorum counted anew
        exact (h.setMatch (Nat.succ_pos _)
          fun hk _ => ⟨hc.target_mem, hterm ▸ hm hk hok⟩).tryAdvanceCommitIndex
      · -- only the next index moves, and it stays positive
        refine ⟨s, .refl n _ s, h.global, ⟨{ hvi with next_pos := fun v x hv => ?_ },
          fun hk => { h.node.logs hk with }, h.node.uncompacted,
            fun hk => { h.node.commits hk with },
          h.node.led⟩⟩
        by_cases hvp : v = peer
        · subst hvp
          rw [AList.lookup_insert] at hv
          have := Option.some.inj hv
          omega
        · rw [AList.lookup_insert_ne hvp] at hv
          exact hvi.next_pos v x hv

omit [StateMachine σ] in
/-- The snapshot callback checks neither role nor term; what it notes is
committed, whoever leads now. -/
theorem onInstallSnapshotReply (h : Tracks k voters s n nd) {req : InstallSnapshotReq}
    (hc : SnapshotCall k voters s n peer req) (resp : InstallSnapshotResp) :
    ∃ s', Moves n noVote s s' ∧
      Tracks k voters s' n (nd.onInstallSnapshotReply peer req.lastIncludedIndex resp) := by
  have hvi := h.node.votes
  have hE := h.global.elections
  unfold RaftNode.onInstallSnapshotReply
  split
  · exact ⟨_, .raise s n resp.term, h.becomeFollower resp.term 0⟩
  · refine ⟨s, .refl n _ s, h.setMatch (Nat.succ_pos _) fun hk hr => ⟨hc.sent.target_mem, ?_⟩⟩
    have hk' : k ≠ .votes := by rw [hk]; simp
    obtain ⟨p, hp, hlen, _⟩ := hc.snapshot hk
    have hle := (hE.leader_le _ n hc.sent.leader).2
    have hled : s.leader (s.term n) ≠ none := by rw [hvi.leader hr]; simp
    have hon := hp.isPrefix_hist hE (h.global.logs hk') (h.global.commits hk) hle hled
    rw [← hlen]
    refine ⟨hon.length_le, .inr ?_⟩
    rw [← List.prefix_iff_eq_take.mp hon]
    exact hp.term_mono hle

/-! ## Snapshots and restarts -/

theorem forceSnapshot (h : Tracks k voters s n nd) (hk : k ≠ .logs) :
    Tracks k voters s n nd.forceSnapshot := by
  unfold RaftNode.forceSnapshot
  split
  · exact h
  next hgt =>
  obtain ⟨hg, hnode⟩ := h
  have hvi := hnode.votes
  set log := nd.log.compactUpTo nd.lastApplied (nd.log.termAt nd.lastApplied)
    (StateMachine.snapshot nd.sm) with hlog
  have hvotes : VoteInv voters s n { nd with log } :=
    hvi.relog rfl rfl rfl rfl rfl rfl (hvi.synced.compactUpTo _ _ _)
      (PersistentLog.compactUpTo_currentTerm ..) (PersistentLog.compactUpTo_votedFor ..)
      fun e he => hvi.plain e (nd.log.mem_compactUpTo_entries _ _ _ he)
  -- what a snapshot changes depends on how much of the log is followed
  cases k with
  | logs => exact absurd rfl hk
  | votes =>
      refine ⟨hg, hvotes, fun hk => absurd rfl hk, fun hk => ?_, fun hk => ?_, fun hk => ?_⟩
      all_goals cases hk
  | commits =>
      have hk' : Scope.commits ≠ .votes := by simp
      have hrep := (hnode.logs hk').log
      have hm := hnode.commits rfl
      have hle := Nat.le_trans hm.applied_le ((hg.logs hk').base_le n)
      -- the snapshot covers what is applied, so the full log stays the same
      have hrep' : log.Represents (s.log n) := by
        have hlen : ((s.log n).take nd.lastApplied).length = nd.lastApplied := by
          rw [List.length_take]; omega
        have := hrep.compactUpTo (p := (s.log n).take nd.lastApplied) (by omega)
          (hrep.indexed.take _) (StateMachine.snapshot nd.sm)
        rwa [lastTerm, hlen, termAt_take (Nat.le_refl _) hle, ← hrep.termAt (by omega),
          List.take_append_drop] at this
      have hsnap : log.snapshotIndex = nd.lastApplied := by
        rw [hlog, PersistentLog.compactUpTo_snapshotIndex]
        omega
      refine ⟨hg, hvotes, fun hk => ⟨hrep', (hnode.logs hk).stood⟩, (fun hk => by cases hk),
        fun _ => { hm with snap_le := hsnap.le, covered := fun i e hi hlt he => ?_ }, hnode.led⟩
      exact hm.covered i e (Nat.le_trans hm.snap_le (hsnap.ge.trans hi)) hlt he

theorem maybeSnapshot (h : Tracks k voters s n nd) (hk : k ≠ .logs) :
    Tracks k voters s n nd.maybeSnapshot := by
  unfold RaftNode.maybeSnapshot
  split
  · exact h.forceSnapshot hk
  · exact h

/-- A restart loads the log the node had; what it had committed beyond its
snapshot it has to learn again. -/
theorem restart (h : Tracks k voters s n nd) : Tracks k voters s n nd.restart := by
  obtain ⟨hg, hnode⟩ := h
  have hvi := hnode.votes
  have hlog : nd.restart.log = nd.log := hvi.synced
  refine ⟨hg, ⟨hvi.id, hvi.initial, hvi.initial, rfl, by rw [hlog]; exact hvi.term,
    by rw [hlog]; exact hvi.vote, nofun, nofun, by rw [hlog]; exact hvi.plain, ?_⟩,
    fun hk => ⟨by rw [hlog]; exact (hnode.logs hk).log, nofun⟩,
    by rw [hlog]; exact hnode.uncompacted, fun hk => ?_, nofun⟩
  · intro v i hv
    simp [RaftNode.restart, RaftNode.new] at hv
  · have hm := hnode.commits hk
    have hci : nd.restart.commitIndex = nd.log.snapshotIndex :=
      congrArg PersistentLog.snapshotIndex hlog
    have hla : nd.restart.lastApplied = nd.log.snapshotIndex :=
      congrArg PersistentLog.snapshotIndex hlog
    have hcom := hm.applied_committed.of_isPrefix (List.take_prefix_take_left hm.snap_le)
    have hle := Nat.le_trans hm.snap_le hm.applied_le
    refine ⟨by rw [hci]; exact hcom, by rw [hci]; exact hle, by rw [hla]; exact hcom,
      by rw [hla]; exact hle, by rw [hla, hlog], nofun, hm.applied, fun i e hi hlt _ => ?_⟩
    rw [hlog] at hi
    rw [hla] at hlt
    omega

end Tracks

end KvRaft
