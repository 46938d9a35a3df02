import KvRaft.Frame
import KvRaft.Refine.Sending

/-!
# KvRaft.Refine.Handlers

RPC handlers, reply callbacks, snapshots and restarts keep the relation of
`KvRaft.Refine.Relation`.

The handler of `AppendEntries` is where the source leaves the protocol: it
cuts the log at every accepted request.  `SafeAppend` is what a request has to
satisfy for commits to be followed through it.
-/

namespace KvRaft

open Replica

/-! ## Requests that can be followed -/

namespace RaftNode

variable {σ : Type}

/-- The request does not start below the snapshot, and it either reaches the
end of the log or conflicts with it: nothing that agrees with the request is
cut off. -/
def SafeAppend (n : RaftNode σ) (req : AppendEntriesReq) : Prop :=
  n.accepts req → req.entries ≠ [] → n.log.snapshotIndex ≤ req.prevLogIndex ∧
    (n.log.lastIndex ≤ newLast req ∨ ∃ e ∈ req.entries, n.log.termAt e.index ≠ e.term)

instance (n : RaftNode σ) (req : AppendEntriesReq) : Decidable (n.SafeAppend req) :=
  inferInstanceAs (Decidable (_ → _ → _))

end RaftNode

variable {σ : Type} {k : Scope} {voters : List NodeId} {s : Ghost} {n sender : NodeId}
  {nd : RaftNode σ}

namespace Tracks

/-! ## Votes -/

/-- `handleRequestVote`: a granted vote is cast in the request's term. -/
theorem handleRequestVote (h : Tracks k voters s n nd) {req : RequestVoteReq} {majority : Nat}
    (hc : VoteCall k voters s sender n req majority) :
    ∃ s', Moves n noVote s s' ∧ Tracks k voters s' n (nd.handleRequestVote req).1 ∧
      ((nd.handleRequestVote req).2.voteGranted = true → s'.vote n req.term = some sender) := by
  have hvi := h.node.votes
  have hE := h.global.elections
  obtain ⟨hne0, hpos⟩ := h.global.nonzero _ _ _ hc.stood
  by_cases hlt : req.term < nd.log.currentTerm
  · refine ⟨s, .refl n _ s, ?_, ?_⟩ <;> simp [RaftNode.handleRequestVote, hlt, h]
  -- the node is in the request's term before it decides
  obtain ⟨s₁, nd₁, hnd₁, hmv, ht, hterm, hstood, hvote⟩ :
      ∃ s₁ nd₁, nd₁ = (if req.term > nd.log.currentTerm then nd.becomeFollower req.term 0 else nd) ∧
        Moves n noVote s s₁ ∧ Tracks k voters s₁ n nd₁ ∧ s₁.term n = req.term ∧
        s₁.stood = s.stood ∧ s₁.vote = s.vote := by
    by_cases hgt : req.term > nd.log.currentTerm
    · refine ⟨_, _, (if_pos hgt).symm, .raise s n req.term, h.becomeFollower req.term 0, ?_, rfl,
        rfl⟩
      rw [hvi.term] at hgt
      simp only [State.raise, Function.update_self]
      omega
    · refine ⟨s, nd, (if_neg hgt).symm, .refl n _ s, h, ?_, rfl, rfl⟩
      rw [← hvi.term]
      omega
  have heq : nd.handleRequestVote req = if nd₁.canVote req ∧ nd₁.logOk req then
      ({ nd₁ with log := nd₁.log.setHardState nd₁.log.currentTerm req.candidateId },
        ⟨nd₁.log.currentTerm, true⟩)
      else (nd₁, ⟨nd₁.log.currentTerm, false⟩) := by
    rw [RaftNode.handleRequestVote, if_neg hlt, hnd₁]
    rfl
  rw [heq]
  split
  · next hok =>
    -- granted: the vote was free or the candidate's already, whose log is up to date
    rw [hc.candidateId]
    have hcan := hok.1
    rw [RaftNode.canVote, hc.candidateId] at hcan
    have hle : s₁.term n ≤ s₁.term sender := by
      rw [hterm]
      exact Nat.le_trans (hE.stood_le _ _ _ hc.stood) (hmv.ext.term sender)
    obtain ⟨ht', hv'⟩ := ht.grant hne0 (by rw [hterm]; exact hpos) hle hcan (fun hk => by
      have hk' : k ≠ .votes := by rw [hk]; simp
      have hrep := (ht.node.logs hk').log
      obtain ⟨hlen, hlast⟩ := hc.last hk'
      have hlog := hok.2
      rw [RaftNode.logOk, hrep.lastTerm, hrep.lastIndex, hlen, hlast] at hlog
      rw [hterm, hstood, UpToDate]
      exact hlog.imp id id)
    rw [hterm] at hv'
    exact ⟨_, hmv.trans (.castVote s₁ n sender), ht', fun _ => hv'⟩
  · exact ⟨s₁, hmv, ht, fun hf => by cases hf⟩

/-! ## Entries -/

/-- A request that passes the consistency check starts where the node's log
agrees with that of its leader, and not among leftovers. -/
theorem agrees (h : Tracks k voters s n nd) (hk : k ≠ .votes) {req : AppendEntriesReq}
    (hterm : s.term n = req.term) (hc : AppendCall k voters s sender n req)
    (hcheck : RaftNode.consistencyCheck nd.log req = none) :
    req.prevLogIndex ≤ s.base n ∧ req.prevLogIndex ≤ (s.hist (s.term n)).length ∧
      (s.log n).take req.prevLogIndex = (s.hist (s.term n)).take req.prevLogIndex := by
  obtain ⟨hg, hnode⟩ := h
  have hE := hg.elections
  have hL := hg.logs hk
  have hrep := (hnode.logs hk).log
  have hled : s.leader (s.term n) ≠ none := by rw [hterm, hc.sent.leader]; simp
  -- an empty prefix agrees with everything
  rcases Nat.eq_zero_or_pos req.prevLogIndex with h0 | hpos
  · rw [h0]; simp
  rcases RaftNode.of_consistencyCheck hcheck with h0 | ⟨hsnap, hzero⟩ | ⟨hne, heq⟩
  · omega
  · -- at or below the snapshot, which is committed
    cases k with
    | votes => exact absurd rfl hk
    | logs =>
        rw [(hnode.uncompacted rfl).2] at hsnap
        omega
    | commits =>
        have hm := hnode.commits rfl
        have hsb := Nat.le_trans hm.snap_le hm.applied_le
        have hbl := hL.base_le n
        obtain ⟨hlen, heq⟩ := (hm.applied_committed.of_isPrefix
          (List.take_prefix_take_left hm.snap_le)).take_eq_hist hE hL (hg.commits rfl)
          (by omega) (Nat.le_refl _) hled
        refine ⟨by omega, by omega, ?_⟩
        have := congrArg (List.take req.prevLogIndex) heq
        rwa [List.take_take, List.take_take, Nat.min_eq_left hsnap] at this
  · -- at an entry of the named term: the slice is in range, and log matching applies
    have hsnap : nd.log.snapshotIndex ≤ req.prevLogIndex := by
      by_contra hlt
      exact hne (PersistentLog.Represents.termAt_of_lt (by omega))
    rw [hrep.termAt hsnap] at hne heq
    have hlen : req.prevLogIndex ≤ (s.log n).length := by
      by_contra hlt
      exact hne (termAt_of_length_lt (by omega))
    rcases hc.slice hk with ⟨hin, hprev, _⟩ | ⟨_, hprev, _⟩
    -- past the end of the leader's log there is no entry of that term
    swap
    · rw [hprev] at heq
      exact absurd heq hne
    rw [← hterm] at hin hprev
    rw [hprev] at heq
    -- what matches the leader's log is part of the followed log
    have hbase : req.prevLogIndex ≤ s.base n := by
      cases k with
      | votes => exact absurd rfl hk
      | logs => rw [(hnode.uncompacted rfl).1]; exact hlen
      | commits => exact (hg.commits rfl).not_matched hE hL hled hlen hin heq
    refine ⟨hbase, hin, ?_⟩
    have hbl := hL.base_le n
    have hmatch := (hL.log_sound n).take_eq (hL.hist_sound (s.term n))
      (i := req.prevLogIndex) (by rw [List.length_take]; omega) hin
      (by rw [termAt_take hbase hbl]; exact heq)
    rwa [List.take_take, Nat.min_eq_left hbase] at hmatch

/-- The entries of a request follow its previous index on the leader's log. -/
theorem take_newLast (h : Tracks k voters s n nd) (hk : k ≠ .votes) {req : AppendEntriesReq}
    (hc : AppendCall k voters s sender n req)
    (hprev : req.prevLogIndex ≤ (s.hist req.term).length) :
    PersistentLog.IndexedFrom req.prevLogIndex req.entries ∧
      RaftNode.newLast req = req.prevLogIndex + req.entries.length ∧
      RaftNode.newLast req ≤ (s.hist req.term).length ∧
      (s.hist req.term).take (RaftNode.newLast req)
        = (s.hist req.term).take req.prevLogIndex ++ req.entries := by
  -- a heartbeat that starts past the leader's log carries nothing
  have hes : req.entries <+: (s.hist req.term).drop req.prevLogIndex := by
    rcases hc.slice hk with ⟨_, _, hes⟩ | ⟨_, _, hnil⟩
    · exact hes
    · rw [hnil]; exact List.nil_prefix
  have hidx : PersistentLog.IndexedFrom req.prevLogIndex req.entries := by
    have := ((h.global.indexed hk req.term).drop req.prevLogIndex).of_isPrefix hes
    rwa [Nat.zero_add] at this
  have hlast : RaftNode.newLast req = req.prevLogIndex + req.entries.length := by
    unfold RaftNode.newLast
    cases hl : req.entries.getLast? with
    | none =>
        rw [List.getLast?_eq_none_iff.mp hl]
        rfl
    | some e => exact hidx.getLast?_index hl
  have hlen := hes.length_le
  rw [List.length_drop] at hlen
  refine ⟨hidx, hlast, by omega, ?_⟩
  rw [hlast, List.take_add, ← List.prefix_iff_eq_take.mp hes]

omit k in
theorem voteInv_acceptEntries (h : VoteInv voters s n nd) {req : AppendEntriesReq}
    (hplain : ∀ e ∈ req.entries, e.type ≠ .config) : VoteInv voters s n (nd.acceptEntries req) :=
  h.relog rfl rfl rfl rfl rfl rfl (h.synced.appendAndSync _)
    (PersistentLog.appendAndSync_currentTerm ..) (PersistentLog.appendAndSync_votedFor ..)
    fun e he => (nd.log.mem_appendAndSync_entries _ he).elim (h.plain e) (hplain e)

/-- The commit index after an accepted request is committed on the leader's log. -/
theorem commitIndex_acceptEntries {req : AppendEntriesReq} {t b : Nat}
    (hold : Committed s t ((s.hist t).take nd.commitIndex)) (hold_le : nd.commitIndex ≤ b)
    (hnew : Committed s t ((s.hist t).take req.leaderCommit)) (hnew_le : RaftNode.newLast req ≤ b) :
    (nd.acceptEntries req).commitIndex ≤ b ∧
      Committed s t ((s.hist t).take (nd.acceptEntries req).commitIndex) ∧
      ((nd.acceptEntries req).commitIndex ≤ RaftNode.newLast req ∨
        (nd.acceptEntries req).commitIndex = nd.commitIndex) := by
  simp only [RaftNode.acceptEntries]
  split
  · refine ⟨by omega, hnew.of_isPrefix (List.take_prefix_take_left (by omega)), by omega⟩
  · exact ⟨hold_le, hold, .inr rfl⟩

/-- A heartbeat changes the commit index and nothing else, as long as what is committed
then lies where the node agrees with its leader. -/
theorem nodeInv_acceptHeartbeat (h : Tracks k voters s n nd) (hr : nd.role = .follower)
    {req : AppendEntriesReq} (hk : k = .commits) (hc : AppendCall k voters s sender n req)
    (hnil : req.entries = []) (hle : (nd.acceptEntries req).commitIndex ≤ s.base n)
    (hcom : Committed s (s.term n) ((s.log n).take (nd.acceptEntries req).commitIndex)) :
    NodeInv k voters s n (nd.acceptEntries req) := by
  have hnode := h.node
  have hm := hnode.commits hk
  have hlog : nd.log.appendAndSync req.entries = nd.log := by rw [hnil]; rfl
  refine ⟨{ voteInv_acceptEntries hnode.votes hc.plain with }, fun hk => ⟨?_, fun hr' => ?_⟩,
    fun hk => ?_, fun _ => ⟨hcom, hle, hm.applied_committed, hm.applied_le, ?_, fun hr' => ?_,
    hm.applied, ?_⟩, fun _ hr' => nomatch hr.symm.trans hr'⟩
  · change (nd.log.appendAndSync req.entries).Represents _
    rw [hlog]; exact (hnode.logs hk).log
  · rw [show (nd.acceptEntries req).role = nd.role from rfl, hr] at hr'; cases hr'
  · change _ ∧ (nd.log.appendAndSync req.entries).snapshotIndex = 0
    rw [hlog]; exact hnode.uncompacted hk
  · change (nd.log.appendAndSync req.entries).snapshotIndex ≤ _
    rw [hlog]; exact hm.snap_le
  · rw [show (nd.acceptEntries req).role = nd.role from rfl, hr] at hr'; cases hr'
  · change ∀ i e, (nd.log.appendAndSync req.entries).snapshotIndex ≤ i → _
    rw [hlog]; exact hm.covered

/-- An accepted heartbeat: the log stays, the node acknowledges where it
agrees with its leader. -/
theorem acceptHeartbeat (h : Tracks k voters s n nd) (hr : nd.role = .follower)
    {req : AppendEntriesReq} (hk : k = .commits) (hterm : s.term n = req.term)
    (hc : AppendCall k voters s sender n req)
    (hcheck : RaftNode.consistencyCheck nd.log req = none) (hnil : req.entries = []) :
    ∃ s', Moves n noVote s s' ∧ Tracks k voters s' n (nd.acceptEntries req) ∧
      Matched s' n req.term (RaftNode.newLast req) := by
  have hk' : k ≠ .votes := by rw [hk]; simp
  obtain ⟨hbase, hlen, htake⟩ := h.agrees hk' hterm hc hcheck
  obtain ⟨_, hlast, _, _⟩ := h.take_newLast hk' hc (hterm ▸ hlen)
  rw [hnil, List.length_nil, Nat.add_zero] at hlast
  have hg := h.global
  have hE := hg.elections
  have hL := hg.logs hk'
  have hC := hg.commits hk
  have hm := h.node.commits hk
  have hbl := hL.base_le n
  have hcl := hm.commit_le
  have hled : s.leader (s.term n) ≠ none := by rw [hterm, hc.sent.leader]; simp
  obtain ⟨_, hcommit⟩ := hm.committed.take_eq_hist hE hL hC (by omega) (Nat.le_refl _) hled
  obtain ⟨_, hlead⟩ := hc.commit hk
  rw [← hterm] at hlead
  obtain ⟨hle, hcom, hwhich⟩ := commitIndex_acceptEntries (hcommit ▸ hm.committed) hcl hlead
    (by rw [hlast]; exact hbase)
  -- the commit index lies where the two logs agree
  have hcom' : Committed s (s.term n) ((s.log n).take (nd.acceptEntries req).commitIndex) := by
    rcases hwhich with hw | hw
    · rw [hlast] at hw
      have := congrArg (List.take (nd.acceptEntries req).commitIndex) htake
      rw [List.take_take, List.take_take, Nat.min_eq_left hw] at this
      rw [this]
      exact hcom
    · rw [hw]; exact hm.committed
  have hnode := h.nodeInv_acceptHeartbeat hr hk hc hnil hle hcom'
  rw [hlast, ← hterm]
  by_cases hclean : s.Clean n
  · -- a clean log acknowledges what the heartbeat has compared
    have hpl : (s.hist (s.term n)).take req.prevLogIndex <+: s.log n := by
      rw [← htake]; exact List.take_prefix _ _
    refine ⟨s.acknowledge n req.prevLogIndex, .acknowledge s n _, ⟨⟨hE.acknowledge n _ hled,
      hg.nonzero, fun hk => (hg.logs hk).acknowledge n _, hg.indexed,
      fun hk => (hg.commits hk).acknowledge hE hL n hclean hlen hpl⟩,
      hnode.mono (.acknowledge s n _) (.acknowledge n n _)⟩, hlen, .inl ?_⟩
    simp only [State.acknowledge, set₂_self]
    exact Nat.le_max_right _ _
  · -- otherwise that part is committed already
    refine ⟨s, .refl n _ s, ⟨hg, hnode⟩, hlen, .inr ?_⟩
    rw [← htake]
    exact ((hC.grafted n).committed.resolve_left hclean).of_isPrefix
      (List.take_prefix_take_left hbase)

/-- A safe request throws nothing away that agrees with it. -/
theorem keeps_of_safe (h : Tracks k voters s n nd) (hk : k ≠ .votes) {req : AppendEntriesReq}
    (hc : AppendCall k voters s sender n req)
    (hprev : req.prevLogIndex ≤ (s.hist req.term).length)
    (hsnap : nd.log.snapshotIndex ≤ req.prevLogIndex)
    (hsafe : nd.log.lastIndex ≤ RaftNode.newLast req ∨
      ∃ e ∈ req.entries, nd.log.termAt e.index ≠ e.term)
    (hp : (s.hist req.term).take (RaftNode.newLast req) <+: s.log n) :
    (s.log n).length ≤ RaftNode.newLast req := by
  have hrep := (h.node.logs hk).log
  obtain ⟨hidx, hlast, hlen, htake⟩ := h.take_newLast hk hc hprev
  rcases hsafe with hle | ⟨e, he, hne⟩
  · rwa [hrep.lastIndex] at hle
  · -- the conflicting entry would be in the log
    obtain ⟨j, hj, rfl⟩ := List.getElem_of_mem he
    have hindex := hidx j _ (List.getElem?_eq_getElem hj)
    refine absurd ?_ hne
    have htlen : ((s.hist req.term).take req.prevLogIndex).length = req.prevLogIndex := by
      rw [List.length_take]; omega
    have hjl : req.prevLogIndex + j
        < ((s.hist req.term).take (RaftNode.newLast req)).length := by
      rw [List.length_take]; omega
    rw [hrep.termAt (by omega), hindex, termAt_eq_of_isPrefix hp (by omega),
      termAt_succ_of_lt hjl]
    simp only [htake]
    rw [List.getElem_append_right (by omega)]
    simp only [htlen, Nat.add_sub_cancel_left]
    rfl

theorem replicate_log {m : Nat} : (s.replicate n m).log n = (s.hist (s.term n)).take m := by
  simp [State.replicate, State.acknowledge, State.install]

theorem replicate_base {m : Nat} (hm : m ≤ (s.hist (s.term n)).length) :
    (s.replicate n m).base n = m := by
  simp only [State.replicate, State.acknowledge, State.install, Function.update_self,
    List.length_take]
  exact Nat.min_eq_left hm

/-- What is committed of a log lies below an index at which cutting the log loses nothing that
agrees with its leader's. -/
theorem committed_within (h : Tracks k voters s n nd) (hk : k = .commits)
    (hled : s.leader (s.term n) ≠ none) {m i : Nat}
    (hkeep : (s.hist (s.term n)).take m <+: s.log n → (s.log n).length ≤ m) (hi : i ≤ s.base n)
    (hcom : Committed s (s.term n) ((s.log n).take i)) :
    i ≤ m ∧ (s.log n).take i = (s.hist (s.term n)).take i := by
  have hk' : k ≠ .votes := by rw [hk]; simp
  have hL := h.global.logs hk'
  have hbl := hL.base_le n
  obtain ⟨_, heq⟩ := hcom.take_eq_hist h.global.elections hL (h.global.commits hk) (by omega)
    (Nat.le_refl _) hled
  refine ⟨?_, heq⟩
  -- a longer committed prefix would hold all of the request, and be longer than the log
  by_contra hlt
  have := hkeep ((List.take_prefix_take_left (by omega : _ ≤ i)).trans
    (heq ▸ List.take_prefix i (s.log n)))
  omega

/-- What a node has committed and applied stays so when it takes over its leader's log. -/
theorem commits_acceptNew (h : Tracks k voters s n nd) (hk : k = .commits)
    (hr : nd.role = .follower) {req : AppendEntriesReq} (hterm : s.term n = req.term)
    (hc : AppendCall k voters s sender n req)
    (hmlen : RaftNode.newLast req ≤ (s.hist (s.term n)).length)
    (hkeep : (s.hist (s.term n)).take (RaftNode.newLast req) <+: s.log n →
      (s.log n).length ≤ RaftNode.newLast req) :
    CommitInv voters (s.replicate n (RaftNode.newLast req)) n (nd.acceptEntries req) := by
  have hm := h.node.commits hk
  have hled : s.leader (s.term n) ≠ none := by rw [hterm, hc.sent.leader]; simp
  obtain ⟨hci, hcieq⟩ := h.committed_within hk hled hkeep hm.commit_le hm.committed
  obtain ⟨hla, hlaeq⟩ := h.committed_within hk hled hkeep hm.applied_le hm.applied_committed
  have hx := Extends.replicate s n (RaftNode.newLast req)
  have hsnap : (nd.acceptEntries req).log.snapshotIndex = nd.log.snapshotIndex :=
    PersistentLog.appendAndSync_snapshotIndex _ _
  obtain ⟨hle, hcom, _⟩ := commitIndex_acceptEntries (by rw [← hcieq]; exact hm.committed) hci
    (hterm ▸ (hc.commit hk).2) (Nat.le_refl _)
  refine ⟨?_, (replicate_base hmlen).symm ▸ hle, ?_, (replicate_base hmlen).symm ▸ hla,
    hsnap.le.trans hm.snap_le, fun hr' => ?_, fun e he => ?_, fun i e hi hlt he => ?_⟩
  · rw [replicate_log, List.take_take, Nat.min_eq_left hle]
    exact hcom.mono hx
  · change Committed _ _ (List.take nd.lastApplied _)
    rw [replicate_log, List.take_take, Nat.min_eq_left hla, ← hlaeq]
    exact hm.applied_committed.mono hx
  · cases hr.symm.trans hr'
  · obtain ⟨p, hp, hmem⟩ := hm.applied e he
    exact ⟨p, hp.mono hx, hmem⟩
  · -- what is applied but not yet in a snapshot is the same in both logs
    have hlt : i < nd.lastApplied := hlt
    refine hm.covered i e (hsnap ▸ hi) hlt ?_
    rw [replicate_log, List.getElem?_take_of_lt (by omega)] at he
    rw [← List.getElem?_take_of_lt hlt, hlaeq, List.getElem?_take_of_lt hlt, he]

/-- Accepted entries: the node takes over its leader's log up to their end. -/
theorem acceptNew (h : Tracks k voters s n nd) (hr : nd.role = .follower) {req : AppendEntriesReq}
    (hk : k ≠ .votes) (hterm : s.term n = req.term) (hc : AppendCall k voters s sender n req)
    (hcheck : RaftNode.consistencyCheck nd.log req = none) (hne : req.entries ≠ [])
    (hsafe : k = .commits → nd.log.snapshotIndex ≤ req.prevLogIndex ∧
      (nd.log.lastIndex ≤ RaftNode.newLast req ∨
        ∃ e ∈ req.entries, nd.log.termAt e.index ≠ e.term)) :
    ∃ s', Moves n noVote s s' ∧ Tracks k voters s' n (nd.acceptEntries req) ∧
      (k = .commits → Matched s' n req.term (RaftNode.newLast req)) := by
  obtain ⟨hbase, hlen, htake⟩ := h.agrees hk hterm hc hcheck
  obtain ⟨hidx, hlast, hmlen, hmtake⟩ := h.take_newLast hk hc (hterm ▸ hlen)
  have hkeep : k = .commits → (s.hist (s.term n)).take (RaftNode.newLast req) <+: s.log n →
      (s.log n).length ≤ RaftNode.newLast req := fun hk' hp =>
    h.keeps_of_safe hk hc (hterm ▸ hlen) (hsafe hk').1 (hsafe hk').2 (hterm ▸ hp)
  rw [← hterm] at hmlen hmtake
  have hE := h.global.elections
  have hL := h.global.logs hk
  have hbl := hL.base_le n
  have hled : s.leader (s.term n) ≠ none := by rw [hterm, hc.sent.leader]; simp
  have hself : s.leader (s.term n) ≠ some n := by
    rw [hterm, hc.sent.leader]
    intro h
    exact hc.sent.ne (Option.some.inj h).symm
  have hsnap : nd.log.snapshotIndex ≤ req.prevLogIndex := by
    cases k with
    | votes => exact absurd rfl hk
    | logs => rw [(h.node.uncompacted rfl).2]; exact Nat.zero_le _
    | commits => exact (hsafe rfl).1
  -- the node's log is now that of its leader, up to the end of the request
  have hrep : (nd.log.appendAndSync req.entries).Represents
      ((s.hist (s.term n)).take (RaftNode.newLast req)) := by
    rw [hmtake, ← htake]
    exact (h.node.logs hk).log.appendAndSync hsnap (by omega) hne hidx
  refine ⟨s.replicate n (RaftNode.newLast req), .replicate s n _,
    ⟨⟨hE.replicate n _ hled, h.global.nonzero, fun _ => hL.replicate n _ hself, h.global.indexed,
      fun hk' => (h.global.commits hk').replicate hE hL n hled hself hmlen (hkeep hk')⟩,
    ⟨{ voteInv_acceptEntries h.node.votes hc.plain with },
      fun _ => ⟨by rw [replicate_log]; exact hrep, fun hr' => by cases hr.symm.trans hr'⟩,
      fun hk' => ⟨?_, ?_⟩, fun hk' => h.commits_acceptNew hk' hr hterm hc hmlen (hkeep hk'),
      fun _ hr' => by cases hr.symm.trans hr'⟩⟩,
    fun hk' => ⟨hterm ▸ hmlen, .inl ?_⟩⟩
  · rw [State.Clean, replicate_log, replicate_base hmlen, List.length_take]
    exact (Nat.min_eq_left hmlen).symm
  · exact (PersistentLog.appendAndSync_snapshotIndex _ _).trans (h.node.uncompacted hk').2
  · -- the node has now acknowledged the end of the request
    rw [← hterm]
    simp only [State.replicate, State.acknowledge, State.install, set₂_self]
    exact Nat.le_max_right _ _

/-- An accepted request, as far as the run is followed. -/
theorem acceptEntries (h : Tracks k voters s n nd) (hr : nd.role = .follower)
    {req : AppendEntriesReq} (hterm : s.term n = req.term)
    (hc : AppendCall k voters s sender n req)
    (hcheck : RaftNode.consistencyCheck nd.log req = none)
    (hsafe : k = .commits → req.entries ≠ [] → nd.log.snapshotIndex ≤ req.prevLogIndex ∧
      (nd.log.lastIndex ≤ RaftNode.newLast req ∨
        ∃ e ∈ req.entries, nd.log.termAt e.index ≠ e.term)) :
    ∃ s', Moves n noVote s s' ∧ Tracks k voters s' n (nd.acceptEntries req) ∧
      (k = .commits → Matched s' n req.term (RaftNode.newLast req)) := by
  -- with votes alone nothing of the log is followed
  by_cases hk : k = .votes
  · subst hk
    exact ⟨s, .refl n _ s, ⟨h.global, ⟨voteInv_acceptEntries h.node.votes hc.plain,
      fun hk => absurd rfl hk, nofun, nofun, nofun⟩⟩, nofun⟩
  by_cases hnil : req.entries = []
  swap
  · exact h.acceptNew hr hk hterm hc hcheck hnil (fun hk' => hsafe hk' hnil)
  by_cases hk' : k = .commits
  · obtain ⟨s', hmv, ht, hm⟩ := h.acceptHeartbeat hr hk' hterm hc hcheck hnil
    exact ⟨s', hmv, ht, fun _ => hm⟩
  · -- without commits an accepted heartbeat changes nothing that is followed
    have hlog : nd.log.appendAndSync req.entries = nd.log := by rw [hnil]; rfl
    refine ⟨s, .refl n _ s, ⟨h.global, ⟨voteInv_acceptEntries h.node.votes hc.plain,
      fun hk => ⟨?_, fun hr' => ?_⟩, fun hk => ?_, fun hk => absurd hk hk',
      fun hk => absurd hk hk'⟩⟩, fun hk => absurd hk hk'⟩
    · change (nd.log.appendAndSync req.entries).Represents _
      rw [hlog]; exact (h.node.logs hk).log
    · rw [show (nd.acceptEntries req).role = nd.role from rfl, hr] at hr'; cases hr'
    · change _ ∧ (nd.log.appendAndSync req.entries).snapshotIndex = 0
      rw [hlog]; exact h.node.uncompacted hk

/-- A node that handles a request of its term or a later one is in that term. -/
theorem raise_term (h : Tracks k voters s n nd) {t : Nat} (ht : nd.log.currentTerm ≤ t) :
    (s.raise n t).term n = t := by
  rw [h.node.votes.term] at ht
  simp only [State.raise, Function.update_self]
  exact Nat.max_eq_right ht

theorem handleAppendEntries [StateMachine σ] (h : Tracks k voters s n nd) {req : AppendEntriesReq}
    (hc : AppendCall k voters s sender n req) (hsafe : k = .commits → nd.SafeAppend req) :
    ∃ s', Moves n noVote s s' ∧ Tracks k voters s' n (nd.handleAppendEntries req).1 ∧
      (k = .commits → (nd.handleAppendEntries req).2.success = true →
        Matched s' n req.term (nd.handleAppendEntries req).2.matchIndex) := by
  by_cases hlt : req.term < nd.log.currentTerm
  · refine ⟨s, .refl n _ s, ?_, ?_⟩ <;> simp [RaftNode.handleAppendEntries, hlt, h]
  -- a current request makes the node a follower of its sender first
  have hle : nd.log.currentTerm ≤ req.term := by omega
  have hf := h.becomeFollower req.term req.leaderId
  have hmvf : Moves n noVote s (s.raise n req.term) := .raise s n req.term
  have hcf := hc.mono hmvf.ext
  cases hcheck : RaftNode.consistencyCheck (nd.becomeFollower req.term req.leaderId).log req with
  | some x =>
      refine ⟨_, hmvf, ?_, ?_⟩ <;> simp [RaftNode.handleAppendEntries, hlt, hcheck, hf]
  | none =>
      -- the step from the request's condition to that of the log it is appended to
      have hsafe' : k = .commits → req.entries ≠ [] →
          (nd.becomeFollower req.term req.leaderId).log.snapshotIndex ≤ req.prevLogIndex ∧
          ((nd.becomeFollower req.term req.leaderId).log.lastIndex ≤ RaftNode.newLast req ∨
            ∃ e ∈ req.entries,
              (nd.becomeFollower req.term req.leaderId).log.termAt e.index ≠ e.term) := by
        intro hk hne
        have hacc : nd.accepts req :=
          ⟨hle, (nd.consistencyCheck_becomeFollower _ _ req).symm.trans hcheck⟩
        have hs := hsafe hk hacc hne
        simp only [RaftNode.becomeFollower]
        split <;> exact hs
      obtain ⟨s', hmv, ht, hm⟩ := hf.acceptEntries rfl (h.raise_term hle) hcf hcheck hsafe'
      have heq : nd.handleAppendEntries req =
          (((nd.becomeFollower req.term req.leaderId).acceptEntries req).applyCommittedEntries,
            ⟨((nd.becomeFollower req.term req.leaderId).acceptEntries
              req).applyCommittedEntries.log.currentTerm, true, RaftNode.newLast req, 0, 0⟩) := by
        rw [RaftNode.handleAppendEntries, if_neg hlt]
        simp only [hcheck]
      rw [heq]
      exact ⟨s', hmvf.trans hmv, ht.applyCommittedEntries, fun hk _ => hm hk⟩

/-! ## Snapshots -/

/-- A committed prefix goes under the log: what the node has committed and
applied stays where it is. -/
theorem underlay (h : Tracks k voters s n nd) (hk : k = .commits) {p : List LogEntry}
    (hp : Committed s (s.term n) p) (hself : s.leader (s.term n) ≠ some n) :
    ∃ s', Moves n noVote s s' ∧ Global k voters s' ∧ s'.term = s.term ∧ s'.vote = s.vote ∧
      s'.leader = s.leader ∧ s'.tally = s.tally ∧ s'.log n = p ++ (s.log n).drop p.length ∧
      p.length ≤ s'.base n ∧
      ∀ i, i ≤ s.base n → Committed s (s.term n) ((s.log n).take i) →
        i ≤ s'.base n ∧ (s'.log n).take i = (s.log n).take i := by
  have hk' : k ≠ .votes := by rw [hk]; simp
  obtain ⟨hg, hnode⟩ := h
  have hE := hg.elections
  have hL := hg.logs hk'
  have hC := hg.commits hk
  have hbl := hL.base_le n
  -- either the log holds the snapshot's entries already
  by_cases hpre : p <+: s.log n
  · refine ⟨s, .refl n _ s, hg, rfl, rfl, rfl, rfl, ?_, hC.length_le_base hL hp hpre,
      fun i hi _ => ⟨hi, rfl⟩⟩
    obtain ⟨x, hx⟩ := hpre
    rw [← hx, List.drop_left]
  · -- or they are put under what follows them
    have hlog : (s.graft n p).log n = p ++ (s.log n).drop p.length := by simp [State.graft]
    have hbase : (s.graft n p).base n = p.length := by simp [State.graft]
    refine ⟨s.graft n p, .graft s n p, ⟨hE.graft n p, hg.nonzero,
      fun _ => hL.graft n p hself (hp.sound hL) (fun e he => hp.le hL he), hg.indexed,
      fun _ => hC.graft hE hL n hp hpre⟩, rfl, rfl, rfl, rfl, hlog, hbase.ge, fun i hi hcom => ?_⟩
    -- what is committed is below the new prefix, which the log does not hold
    have hlen : ((s.log n).take i).length = i := by rw [List.length_take]; omega
    have hle : (s.log n).take i <+: p := by
      rcases hcom.comparable hE hL hC hp with hle | hle
      · exact hle
      · exact absurd (hle.trans ⟨_, List.take_append_drop _ _⟩) hpre
    have hip := hle.length_le
    rw [hlen] at hip
    refine ⟨by rw [hbase]; exact hip, ?_⟩
    rw [hlog, List.take_append_of_le_length hip]
    have := List.prefix_iff_eq_take.mp hle
    rw [hlen] at this
    exact this.symm

theorem acceptSnapshot [StateMachine σ] (h : Tracks k voters s n nd) (hr : nd.role = .follower)
    {req : InstallSnapshotReq} (hterm : s.term n = req.term)
    (hc : SnapshotCall k voters s sender n req)
    (hgt : nd.log.snapshotIndex < req.lastIncludedIndex) :
    ∃ s', Moves n noVote s s' ∧ Tracks k voters s' n (nd.acceptSnapshot req) := by
  have hvotes : VoteInv voters s n (nd.acceptSnapshot req) :=
    h.node.votes.relog rfl rfl rfl rfl rfl rfl (h.node.votes.synced.compactUpTo _ _ _)
      (PersistentLog.compactUpTo_currentTerm ..) (PersistentLog.compactUpTo_votedFor ..)
      fun e he => h.node.votes.plain e (nd.log.mem_compactUpTo_entries _ _ _ he)
  cases k with
  | logs => exact absurd rfl hc.compacting
  | votes => exact ⟨s, .refl n _ s, h.global, hvotes, fun hk => absurd rfl hk, nofun, nofun, nofun⟩
  | commits =>
      obtain ⟨p, hp, hlen, hlast⟩ := hc.snapshot rfl
      rw [← hterm] at hp
      have hself : s.leader (s.term n) ≠ some n := by
        rw [hterm, hc.sent.leader]
        intro h
        exact hc.sent.ne (Option.some.inj h).symm
      -- the abstract log takes the snapshot's entries, and keeps what was committed
      obtain ⟨s', hmv, hg', eterm, evote, eleader, etally, hlog, hbase, hkeep⟩ :=
        h.underlay rfl hp hself
      have hrep := (h.node.logs (by simp)).log
      have hm := h.node.commits rfl
      have hidx : PersistentLog.IndexedFrom 0 p := by
        obtain ⟨u, _, hpu⟩ := hp
        exact (h.global.indexed (by simp) u).of_isPrefix (hpu.trans ⟨_, List.take_append_drop _ _⟩)
      obtain ⟨hcle, hceq⟩ := hkeep _ hm.commit_le hm.committed
      obtain ⟨hale, haeq⟩ := hkeep _ hm.applied_le hm.applied_committed
      -- the larger of an old index and the snapshot's is committed again
      have hmax : ∀ i, i ≤ s'.base n → Committed s (s.term n) ((s'.log n).take i) →
          max i req.lastIncludedIndex ≤ s'.base n ∧
            Committed s' (s'.term n) ((s'.log n).take (max i req.lastIncludedIndex)) := by
        intro i hi hcom
        refine ⟨by omega, ?_⟩
        rw [eterm]
        rcases Nat.le_total i req.lastIncludedIndex with hle | hle
        · rw [Nat.max_eq_right hle, hlog, ← hlen, List.take_left]
          exact hp.mono hmv.ext
        · rw [Nat.max_eq_left hle]
          exact hcom.mono hmv.ext
      obtain ⟨hcle', hccom⟩ := hmax _ hcle (hceq ▸ hm.committed)
      obtain ⟨hale', hacom⟩ := hmax _ hale (haeq ▸ hm.applied_committed)
      have hsnap : (nd.acceptSnapshot req).log.snapshotIndex = req.lastIncludedIndex := by
        simp only [RaftNode.acceptSnapshot]
        rw [PersistentLog.compactUpTo_snapshotIndex]
        omega
      refine ⟨s', hmv, hg', ⟨?_, fun _ => ⟨?_, fun hr' => ?_⟩, nofun, fun _ =>
        ⟨hccom, hcle', hacom, hale', ?_, fun hr' => ?_, fun e he => ?_, fun i e hi hlt he => ?_⟩,
        fun _ hr' => nomatch hr.symm.trans hr'⟩⟩
      · -- the votes are what they were
        refine { hvotes with term := ?_, vote := ?_, candidate := ?_, leader := ?_ }
        · rw [eterm]; exact hvotes.term
        · rw [eterm, evote]; exact hvotes.vote
        · rw [eterm, evote, eleader, etally]; exact hvotes.candidate
        · rw [eterm, eleader]; exact hvotes.leader
      · -- the compacted log stands for the new one
        rw [hlog]
        simp only [RaftNode.acceptSnapshot]
        rw [← hlen, ← hlast]
        exact hrep.compactUpTo (by omega) hidx req.data
      · rw [show (nd.acceptSnapshot req).role = nd.role from rfl, hr] at hr'; cases hr'
      · rw [hsnap]
        exact Nat.le_max_right _ _
      · rw [show (nd.acceptSnapshot req).role = nd.role from rfl, hr] at hr'; cases hr'
      · obtain ⟨q, hq, hmem⟩ := hm.applied e he
        exact ⟨q, by rw [eterm]; exact hq.mono hmv.ext, hmem⟩
      · -- what lies above the snapshot was above the old one
        rw [hsnap] at hi
        have hlt' : i < max nd.lastApplied req.lastIncludedIndex := hlt
        rw [hlog, List.getElem?_append_right (by omega), List.getElem?_drop,
          Nat.add_sub_cancel' (by omega)] at he
        exact hm.covered i e (by omega) (by omega) he

theorem handleInstallSnapshot [StateMachine σ] (h : Tracks k voters s n nd)
    {req : InstallSnapshotReq} (hc : SnapshotCall k voters s sender n req) :
    ∃ s', Moves n noVote s s' ∧ Tracks k voters s' n (nd.handleInstallSnapshot req).1 := by
  unfold RaftNode.handleInstallSnapshot
  split
  · exact ⟨s, .refl n _ s, h⟩
  · next hlt =>
    have hf := h.becomeFollower req.term req.leaderId
    have hmvf : Moves n noVote s (s.raise n req.term) := .raise s n req.term
    simp only
    split
    · exact ⟨_, hmvf, hf⟩
    · next hgt =>
      obtain ⟨s', hmv, ht⟩ := hf.acceptSnapshot rfl (h.raise_term (by omega)) (hc.mono hmvf.ext)
        (by omega)
      exact ⟨s', hmvf.trans hmv, ht⟩

end Tracks

end KvRaft
