import KvRaft.BackOff
import KvRaft.CommitCandidate
import KvRaft.Electable
import KvRaft.LogTerms

/-!
# KvRaft.Available

A majority is enough to serve a client: from every state of every run without
snapshots, each majority of the voters can go on, by its timers and messages alone,
to a state in which a command that is proposed on one of its members is committed,
applied and answered.

A leader and a follower whose logs differ may exchange the same messages for ever
(`KvRaft.BackOff`).  But a leader that is elected once more has a longer log, and where
its log is longer than the follower's, the reply sends it back to the first index.

* `RaftNode.Awaits` — a leader and the entry at the end of its log that it has still
  to apply;
* `Cluster.exists_longer` — elections make the log of the leader as long as we like;
* `Cluster.InService.exists_catchUp` — from an index on which the logs agree the
  follower gets the rest;
* `majority_serves` — the command is answered with the result of applying it.
-/

namespace KvRaft

variable {σ : Type}

namespace RaftNode

/-! ## The leader's tables -/

theorem TracksVoters.congr {n n' : RaftNode σ} (h : n.TracksVoters) (hsame : SameTables n n') :
    n'.TracksVoters where
  role := hsame.role.trans h.role
  nodup := by rw [hsame.config]; exact h.nodup
  self := by rw [hsame.id, hsame.config]; exact h.self
  keys := by rw [hsame.config, hsame.matchIndex]; exact h.keys
  le_lastIndex := by rw [hsame.log, hsame.matchIndex]; exact h.le_lastIndex

theorem lookup_foldl_insert_of_mem {x : Nat} {l : List NodeId} {v : NodeId} (h : v ∈ l) :
    (l.foldl (fun m v => m.insert v x) ∅ : AList fun _ : NodeId => Nat).lookup v = some x := by
  have hmem : v ∈ (l.foldl (fun m v => m.insert v x) ∅ : AList fun _ : NodeId => Nat) :=
    mem_foldl_insert.mpr (.inr h)
  obtain ⟨y, hy⟩ := Option.isSome_iff_exists.mp (AList.lookup_isSome.mpr hmem)
  rcases lookup_foldl_insert hy with ⟨-, rfl⟩ | hnone
  · exact hy
  · cases hnone

variable [StateMachine σ] {n m : RaftNode σ} {e : LogEntry}

theorem tryAdvanceCommitIndex_tables (hplain : ∀ e ∈ n.log.entries, e.type ≠ .config) :
    SameTables n n.tryAdvanceCommitIndex := by
  obtain h | ⟨i, -, -, -, h⟩ := n.tryAdvanceCommitIndex_cases
  · rw [h]
    exact ⟨rfl, rfl, rfl, rfl, rfl, rfl⟩
  · have hsame := applyCommittedEntries_tables (n := { n with commitIndex := i }) hplain
    rw [h]
    exact ⟨hsame.id, hsame.role, hsame.config, hsame.log, hsame.nextIndex, hsame.matchIndex⟩

/-! ## A leader without news of its peers -/

/-- No peer has acknowledged anything, and there are peers. -/
structure Unheard (n : RaftNode σ) : Prop where
  tracks : n.TracksVoters
  peers : 2 ≤ n.config.voters.length
  zero : ∀ v ∈ n.config.voters, n.matchIndex.lookup v = some 0

omit [StateMachine σ] in
theorem Unheard.not_hasQuorum (h : n.Unheard) : ¬ n.HasQuorum 1 := by
  have hle : (n.config.voters.countP fun v => decide (1 ≤ n.held v)) ≤ 1 := by
    have hsub : (n.config.voters.filter fun v => decide (1 ≤ n.held v)) ⊆ [n.id] := by
      intro v hv
      obtain ⟨hv, hheld⟩ := List.mem_filter.mp hv
      have hheld := of_decide_eq_true hheld
      rw [List.mem_singleton]
      by_contra hne
      rw [held, if_neg hne, h.zero v hv] at hheld
      exact absurd hheld (by simp)
    have hlen := ((h.tracks.nodup.filter _).subperm hsub).length_le
    rwa [← List.countP_eq_length_filter] at hlen
  have hpeers := h.peers
  rw [h.tracks.hasQuorum_iff]
  omega

/-- Such a leader commits nothing. -/
theorem Unheard.tryAdvanceCommitIndex (h : n.Unheard) : n.tryAdvanceCommitIndex = n := by
  obtain ⟨N, hN, hquorum⟩ := h.tracks.sortedMatches_iff_hasQuorum
  have hzero : N = 0 := by
    by_contra hne
    exact h.not_hasQuorum ((hquorum 1).mpr (by omega))
  unfold RaftNode.tryAdvanceCommitIndex
  rw [if_neg (not_not.mpr h.tracks.role), hN, hzero]
  exact if_neg fun hgt => Nat.not_lt_zero _ hgt.1

omit [StateMachine σ] in
/-- Whoever is elected leader has not heard of its peers. -/
theorem Unheard.of_lead (log : PersistentLog) (hself : n.id ∈ n.config.voters)
    (hnodup : n.config.voters.Nodup) (hpeers : 2 ≤ n.config.voters.length) :
    ({ n.lead with log } : RaftNode σ).Unheard where
  tracks := {
    role := rfl
    nodup := hnodup
    self := hself
    keys := fun v => by
      change v ∈ (n.config.voters.foldl (fun m v => m.insert v 0) ∅ :
        AList fun _ : NodeId => Nat) ↔ v ∈ n.config.voters
      simp [mem_foldl_insert]
    le_lastIndex := fun p hp => by
      have hlookup : (n.config.voters.foldl (fun m v => m.insert v 0) ∅ :
          AList fun _ : NodeId => Nat).lookup p.1 = some p.2 :=
        List.mem_dlookup (AList.nodupKeys _) hp
      rcases lookup_foldl_insert hlookup with ⟨-, hzero⟩ | hnone
      · rw [hzero]
        exact Nat.zero_le _
      · cases hnone }
  peers := hpeers
  zero := fun v hv => lookup_foldl_insert_of_mem hv

omit [StateMachine σ] in
/-- A new entry is the last of the log. -/
theorem getLast?_newEntry (n : RaftNode σ) (data : Bytes) (type : EntryType) :
    (n.log.appendAndSync [n.newEntry data type]).entries.getLast? =
      some (n.newEntry data type) := by
  simp [PersistentLog.appendAndSync, PersistentLog.appended, PersistentLog.rewriteWalLocked]

omit [StateMachine σ] in
theorem lastIndex_newEntry (n : RaftNode σ) (data : Bytes) (type : EntryType) :
    (n.log.appendAndSync [n.newEntry data type]).lastIndex = n.log.lastIndex + 1 := by
  rw [PersistentLog.lastIndex, getLast?_newEntry]
  rfl

omit [StateMachine σ] in
theorem lastTerm_newEntry (n : RaftNode σ) (data : Bytes) (type : EntryType) :
    (n.log.appendAndSync [n.newEntry data type]).lastTerm = n.log.currentTerm := by
  rw [PersistentLog.lastTerm, getLast?_newEntry]
  rfl

/-- A leader that has not heard of its peers proposes, and nothing else happens. -/
theorem Unheard.propose (h : n.Unheard) (data : Bytes) (type : EntryType) :
    (n.propose data type).1 = { n with log := n.log.appendAndSync [n.newEntry data type] } ∧
      (n.propose data type).1.Unheard := by
  have hindex : n.log.lastIndex ≤ (n.log.appendAndSync [n.newEntry data type]).lastIndex := by
    rw [lastIndex_newEntry]
    exact Nat.le_succ _
  have happended : ({ n with
      log := n.log.appendAndSync [n.newEntry data type] } : RaftNode σ).Unheard := {
    tracks := { h.tracks with
      le_lastIndex := fun p hp => (h.tracks.le_lastIndex p hp).trans hindex }
    peers := h.peers
    zero := h.zero }
  rw [propose_fst h.tracks.role, happended.tryAdvanceCommitIndex]
  exact ⟨rfl, happended⟩

/-- A candidate with peers becomes a leader that has added its no-op. -/
theorem becomeLeader_of_peers (hrole : n.role = .candidate) (hself : n.id ∈ n.config.voters)
    (hnodup : n.config.voters.Nodup) (hpeers : 2 ≤ n.config.voters.length) :
    n.becomeLeader.1 = { n.lead with log := n.log.appendAndSync [n.newEntry [] .noOp] } := by
  obtain ⟨heq, hunheard⟩ :=
    (Unheard.of_lead n.log hself hnodup hpeers).propose [] .noOp
  rw [becomeLeader_fst hrole]
  have hlead : ({ n.lead with log := n.log } : RaftNode σ) = n.lead := rfl
  rw [hlead] at heq hunheard
  rw [hunheard.tryAdvanceCommitIndex, heq]
  rfl

/-! ## The entry at the end of the log -/

/-- The entry was applied, and its result can be fetched. -/
def Answered (n : RaftNode σ) (e : LogEntry) : Prop :=
  ∃ o ∈ n.applied, o.entry = e ∧ n.waitApplied e.index = some o.result

/-- A leader and the last entry of its log, which is of its term: either the entry is
still to be applied or it is answered. -/
structure Awaits (log : PersistentLog) (e : LogEntry) (n : RaftNode σ) : Prop where
  log_eq : n.log = log
  tracks : n.TracksVoters
  plain : ∀ x ∈ log.entries, x.type ≠ .config
  progress : (n.commitIndex < e.index ∧ n.lastApplied < e.index) ∨
    e.index ≤ n.lastApplied ∧ (∃ o ∈ n.applied, o.entry = e ∧
      n.pendingResults.lookup e.index = some o.result)

/-- The last entry of a log in order, which is of the current term. -/
structure LastOfTerm (log : PersistentLog) (e : LogEntry) : Prop where
  order : log.InOrder
  last : log.entries.getLast? = some e
  term : e.term = log.currentTerm

namespace LastOfTerm

variable {log : PersistentLog}

theorem index (h : LastOfTerm log e) : log.lastIndex = e.index := by
  rw [PersistentLog.lastIndex, h.last]

theorem mem (h : LastOfTerm log e) : e ∈ log.entries := List.mem_of_getLast? h.last

theorem length (h : LastOfTerm log e) : log.entries.length = e.index := by
  rw [← h.order.represents.lastIndex, h.index]

theorem termAt_index (h : LastOfTerm log e) : log.termAt e.index = log.currentTerm := by
  have hterm : log.lastTerm = Replica.lastTerm log.entries := h.order.represents.lastTerm
  rw [h.order.termAt, ← h.length, ← h.term]
  rw [PersistentLog.lastTerm, h.last] at hterm
  exact hterm.symm

end LastOfTerm

namespace Awaits

variable {log : PersistentLog}

theorem answered (h : Awaits log e n) (happlied : e.index ≤ n.lastApplied) : n.Answered e := by
  rcases h.progress with ⟨-, hlt⟩ | ⟨-, o, ho, heq, hresult⟩
  · omega
  · refine ⟨o, ho, heq, ?_⟩
    rw [waitApplied, if_pos happlied, hresult]
    rfl

/-- Committing an index of the log applies the entries up to it. -/
theorem applyCommittedEntries (h : Awaits log e n) (hlast : LastOfTerm log e) {i : Nat}
    (hi : i ≤ e.index) :
    Awaits log e (RaftNode.applyCommittedEntries { n with commitIndex := i }) ∧
      (i = e.index →
        (RaftNode.applyCommittedEntries { n with commitIndex := i }).Answered e) := by
  set m : RaftNode σ := { n with commitIndex := i } with hm
  have hlog : m.log = log := h.log_eq
  have hlen := hlast.length
  -- the batch is the piece of the log from the last applied entry to the new commit index
  have hbatch : m.toApply = (log.entries.drop n.lastApplied).take (i - n.lastApplied) := by
    rw [toApply, hlog, collect_eq hlast.order.represents]
    rw [hlast.order.snapshotIndex]
    exact Nat.zero_le _
  have htables := applyCommittedEntries_tables (n := m) (hlog ▸ h.plain)
  obtain ⟨_, _, _, _, pendingResults, records, happly, hrecords, hkept, hresults⟩ :=
    m.applyCommittedEntries_eq
  have htracks : m.applyCommittedEntries.TracksVoters :=
    TracksVoters.congr (n := m) { h.tracks with } htables
  have hawaits : ∀ hprogress, Awaits log e m.applyCommittedEntries :=
    fun hprogress => ⟨htables.log.trans hlog, htracks, h.plain, hprogress⟩
  have hnodup : (m.toApply.map LogEntry.index).Nodup :=
    (collect_indexed (hlog ▸ hlast.order.represents.aligned) _ _).nodup_index
  -- has the entry been applied already?
  rcases h.progress with ⟨-, hlt⟩ | ⟨happlied, o, ho, heq, hresult⟩
  · have hcount : m.toApply.length = i - n.lastApplied := by
      rw [hbatch, List.length_take, List.length_drop]
      omega
    have happlied : m.applyCommittedEntries.lastApplied = n.lastApplied + (i - n.lastApplied) := by
      rw [happly, hcount]
    by_cases hend : i = e.index
    · -- the new commit index is that of the entry, so it is in the batch
      have hmem : e ∈ m.toApply :=
        mem_toApply (hlog ▸ hlast.order.represents.aligned) (hlog ▸ hlast.mem) hlt (by
          rw [hcount]
          change e.index ≤ n.lastApplied + _
          omega)
      rw [← hrecords] at hmem
      obtain ⟨o, ho, heq⟩ := List.mem_map.mp hmem
      have hanswer := hawaits (.inr ⟨by omega, o, by rw [happly]; exact List.mem_append_right _ ho,
        heq, by rw [happly]; exact heq ▸ hresults hnodup o ho⟩)
      exact ⟨hanswer, fun _ => hanswer.answered (by omega)⟩
    · refine ⟨hawaits (.inl ⟨?_, by omega⟩), fun h => absurd h hend⟩
      rw [happly]
      change i < e.index
      omega
  · -- nothing is left to apply
    have hnone : m.toApply = [] := by
      rw [hbatch, List.drop_eq_nil_of_le (by omega), List.take_nil]
    have hsame : e.index ≤ m.applyCommittedEntries.lastApplied := by
      rw [happly, hnone]
      exact happlied
    have hanswer := hawaits (.inr ⟨hsame, o, by rw [happly]; exact List.mem_append_left _ ho, heq,
      by rw [happly]; exact (hkept _ (by rw [hnone]; exact List.not_mem_nil)).trans hresult⟩)
    exact ⟨hanswer, fun _ => hanswer.answered hsame⟩

/-- A leader that looks at its match indices goes on, and it answers once a majority has
the entry. -/
theorem tryAdvanceCommitIndex (h : Awaits log e n) (hlast : LastOfTerm log e) :
    Awaits log e n.tryAdvanceCommitIndex ∧
      (n.HasQuorum e.index → n.tryAdvanceCommitIndex.Answered e) := by
  obtain ⟨N, hN, hquorum⟩ := h.tracks.sortedMatches_iff_hasQuorum
  -- no index beyond the log has a quorum
  have hreach : N ≤ e.index := by
    rw [← hlast.index, ← h.log_eq]
    exact h.tracks.le_of_hasQuorum ((hquorum N).mpr (Nat.le_refl N))
  unfold RaftNode.tryAdvanceCommitIndex
  rw [if_neg (not_not.mpr h.tracks.role), hN]
  simp only
  split
  · next hnew =>
    obtain ⟨hawaits, hanswered⟩ := h.applyCommittedEntries hlast hreach
    exact ⟨hawaits, fun hall => hanswered (Nat.le_antisymm hreach ((hquorum _).mp hall))⟩
  · next hold =>
    -- the commit index was there already, so the entry was applied with it
    refine ⟨h, fun hall => ?_⟩
    have hend : N = e.index := Nat.le_antisymm hreach ((hquorum _).mp hall)
    have hterm : n.log.termAt N = n.log.currentTerm := by
      rw [hend, h.log_eq, hlast.termAt_index]
    rcases h.progress with ⟨hlt, -⟩ | ⟨happlied, -⟩
    · exact absurd ⟨by omega, hterm⟩ hold
    · exact h.answered happlied

end Awaits

/-! ## A leader and a peer -/

/-- The peer has the first `k` entries of the leader. -/
structure Shares (n m : RaftNode σ) (k : Nat) : Prop where
  le : k ≤ n.log.lastIndex
  take_eq : m.log.entries.take k = n.log.entries.take k

theorem termAt_ne_zero {log : PersistentLog} (h : log.InOrder) {k : Nat} (hpos : 0 < k)
    (hk : k ≤ log.lastIndex) : log.termAt k ≠ 0 := by
  obtain ⟨e, he, -, heq⟩ := h.represents.aligned.exists_mem_of_le
    (by rw [h.snapshotIndex]; exact hpos) hk
  rw [heq]
  exact h.ordered.ne_zero e he

omit [StateMachine σ] in
/-- So its log has the same term there. -/
theorem Shares.termAt {k : Nat} (h : Shares n m k) (hn : n.log.InOrder) (hm : m.log.InOrder) :
    m.log.termAt k = n.log.termAt k := by
  by_cases hzero : k = 0
  · rw [hzero, hm.termAt, hn.termAt]
    rfl
  · have hat : m.log.entries[k - 1]? = n.log.entries[k - 1]? := by
      have hget := congrArg (·[k - 1]?) h.take_eq
      simpa only [List.getElem?_take_of_lt (by omega : k - 1 < k)] using hget
    simp only [PersistentLog.termAt, hn.snapshotIndex, hm.snapshotIndex, hzero, if_false,
      Nat.not_lt_zero, Nat.sub_zero, hat]

variable {peer : NodeId}

/-- Where the log has the term it is asked for, the check passes. -/
theorem consistencyCheck_of_termAt {log : PersistentLog} {req : AppendEntriesReq}
    (h : req.prevLogIndex = 0 ∨
      log.termAt req.prevLogIndex ≠ 0 ∧ log.termAt req.prevLogIndex = req.prevLogTerm) :
    consistencyCheck log req = none := by
  unfold consistencyCheck
  rcases h with hzero | ⟨hne, heq⟩
  · rw [if_neg (by omega)]
  · split
    · simp only [hne, false_and, if_false, ← heq, ne_eq, not_true, and_false]
    · rfl

/-- The reply to a request that is accepted. -/
theorem handleAppendEntries_snd {req : AppendEntriesReq} (h : n.accepts req) :
    (n.handleAppendEntries req).2 = ⟨req.term, true, newLast req, 0, 0⟩ := by
  have hterm := n.becomeFollower_currentTerm h.1 req.leaderId
  unfold handleAppendEntries
  rw [if_neg (Nat.not_lt_of_le h.1)]
  simp only [consistencyCheck_becomeFollower, h.2, applyCommittedEntries_log, acceptEntries,
    PersistentLog.appendAndSync_currentTerm, hterm]

omit [StateMachine σ] in
/-- What starts with the first entries that the peer lacks is accepted. -/
theorem Shares.consistencyCheck (h : Shares n m (n.nextFor peer - 1)) (hn : n.log.InOrder)
    (hm : m.log.InOrder) : consistencyCheck m.log (n.appendEntriesReq peer) = none := by
  refine consistencyCheck_of_termAt ?_
  change n.nextFor peer - 1 = 0 ∨ m.log.termAt (n.nextFor peer - 1) ≠ 0 ∧
    m.log.termAt (n.nextFor peer - 1) = n.log.termAt (n.nextFor peer - 1)
  rw [h.termAt hn hm]
  rcases Nat.eq_zero_or_pos (n.nextFor peer - 1) with hzero | hpos
  · exact .inl hzero
  · exact .inr ⟨termAt_ne_zero hn hpos h.le, rfl⟩

/-- A request that reaches beyond the log of the peer sends the leader back to the first
index. -/
theorem exchange_short (hleads : Leads (n, m)) (horder : m.log.InOrder)
    (hshort : m.log.lastIndex < n.nextFor peer - 1) :
    exchange peer (n, m) =
      ({ n with nextIndex := n.nextIndex.insert peer 1 },
        m.becomeFollower n.log.currentTerm n.id) := by
  have hzero : m.log.termAt (n.nextFor peer - 1) = 0 := by
    by_contra hne
    exact absurd (horder.represents.aligned.le_lastIndex hne) (Nat.not_le_of_lt hshort)
  have hmismatch : Mismatch peer (n, m) := by
    have hprev : (n.appendEntriesReq peer).prevLogIndex = n.nextFor peer - 1 := rfl
    unfold Mismatch consistencyCheck
    rw [if_pos (by rw [hprev]; omega), hprev]
    simp only [hzero, horder.snapshotIndex, true_and]
    rw [if_pos (by omega)]
    exact Option.some_ne_none _
  rw [(hleads.exchange_eq hmismatch).2, hzero]
  rfl

omit [StateMachine σ] in
/-- What the leader sends of its log. -/
theorem appendEntriesReq_entries (h : n.log.InOrder) (peer : NodeId) :
    (n.appendEntriesReq peer).entries =
      (n.log.entries.drop (n.nextFor peer - 1)).take maxBatch := by
  have hentries := h.represents.entriesAfter (i := n.nextFor peer - 1)
    (by rw [h.snapshotIndex]; exact Nat.zero_le _) maxBatch
  rw [if_neg (by decide)] at hentries
  exact hentries

omit [StateMachine σ] in
/-- The request covers the next `maxBatch` entries. -/
theorem newLast_appendEntriesReq (h : n.log.InOrder)
    (hnext : n.nextFor peer - 1 ≤ n.log.lastIndex) :
    newLast (n.appendEntriesReq peer) =
      min (n.nextFor peer - 1 + maxBatch) n.log.lastIndex := by
  have hlast : n.log.lastIndex = n.log.entries.length := h.represents.lastIndex
  have hindexed := h.entriesAfter (n.nextFor peer - 1) maxBatch
  have hentries := appendEntriesReq_entries h peer
  unfold newLast
  -- the last entry of the batch, or the one before the batch if that is empty
  cases hget : (n.appendEntriesReq peer).entries.getLast? with
  | none =>
      have hnil := List.getLast?_eq_none_iff.mp hget
      rw [hentries] at hnil
      have hlen := congrArg List.length hnil
      rw [List.length_take, List.length_drop, List.length_nil] at hlen
      change n.nextFor peer - 1 = _
      simp only [maxBatch] at hlen ⊢
      omega
  | some e =>
      have hindex := hindexed.indexed.getLast?_index hget
      have hlen := congrArg List.length hentries
      rw [List.length_take, List.length_drop] at hlen
      change e.index = _
      change e.index = n.nextFor peer - 1 + (n.appendEntriesReq peer).entries.length at hindex
      simp only [maxBatch] at hlen ⊢
      omega

/-- A piece of a log that is put on another one, which has the entries before it. -/
theorem entries_appendAndSync {log log' : PersistentLog} (h : log.InOrder) (h' : log'.InOrder)
    {i b : Nat} {es : List LogEntry} (hes : es = (log.entries.drop i).take b) (hne : es ≠ [])
    (hbefore : log'.entries.take i = log.entries.take i) :
    (log'.appendAndSync es).entries = log.entries.take (i + b) := by
  have hindexed : PersistentLog.IndexedFrom i es := by
    have hdrop := h.ordered.indexed.drop i
    rw [Nat.zero_add] at hdrop
    rw [hes]
    exact hdrop.take b
  rw [PersistentLog.appendAndSync_entries (by rw [h'.snapshotIndex]; exact Nat.zero_le i) hne
    hindexed, h'.snapshotIndex, Nat.sub_zero, hbefore, hes, List.take_add]

/-- A round in which the peer has what comes before the request: it then has the entries
up to the end of the request. -/
theorem exchange_match (hleads : Leads (n, m)) (hn : n.log.InOrder) (hm : m.log.InOrder)
    (hshares : Shares n m (n.nextFor peer - 1)) :
    let k := min (n.nextFor peer - 1 + maxBatch) n.log.lastIndex
    (exchange peer (n, m)).1 = tryAdvanceCommitIndex
        { n with
          matchIndex := n.matchIndex.insert peer k
          nextIndex := n.nextIndex.insert peer (k + 1) } ∧
      Shares n (exchange peer (n, m)).2 k ∧
      (exchange peer (n, m)).2.log.currentTerm = n.log.currentTerm := by
  intro k
  have hcheck := hshares.consistencyCheck hn hm
  -- the follower has the entry before the batch, so it accepts
  have haccepts : m.accepts (n.appendEntriesReq peer) := ⟨hleads.term, hcheck⟩
  have hk : newLast (n.appendEntriesReq peer) = k := newLast_appendEntriesReq hn hshares.le
  have hreply := handleAppendEntries_snd haccepts
  have hlog := handleAppendEntries_log haccepts
  have hfollows : (m.becomeFollower n.log.currentTerm n.id).log.InOrder ∧
      (m.becomeFollower n.log.currentTerm n.id).log.currentTerm = n.log.currentTerm := by
    refine ⟨?_, m.becomeFollower_currentTerm hleads.term n.id⟩
    unfold becomeFollower
    split
    · next hlt => exact hm.setHardState (Nat.le_of_lt hlt) 0
    · exact hm
  have hrole : n.role = .leader := hleads.role
  rw [hk] at hreply
  refine ⟨?_, ⟨Nat.min_le_right _ _, ?_⟩, ?_⟩
  · -- the answer is in the leader's term
    have hsent : (n.appendEntriesReq peer).term = n.log.currentTerm := rfl
    simp only [exchange, hreply, onAppendEntriesReply, hsent]
    rw [if_neg (Nat.lt_irrefl _), if_neg (by simp [hrole]), if_true]
  · -- what the follower keeps is the leader's log up to the end of the batch
    have hentries := appendEntriesReq_entries hn peer
    have hbecome := SameData.becomeFollower m n.log.currentTerm n.id
    change (m.handleAppendEntries (n.appendEntriesReq peer)).1.log.entries.take k = _
    rw [hlog]
    by_cases hnil : (n.appendEntriesReq peer).entries = []
    · -- the leader has nothing to send
      have hstart : k = n.nextFor peer - 1 := by rw [← hk, newLast, hnil]; rfl
      rw [hnil]
      change (m.becomeFollower n.log.currentTerm n.id).log.entries.take k = _
      rw [hbecome.entries, hstart]
      exact hshares.take_eq
    · have hput : ((m.becomeFollower n.log.currentTerm n.id).log.appendAndSync
          (n.appendEntriesReq peer).entries).entries =
            n.log.entries.take (n.nextFor peer - 1 + maxBatch) :=
        entries_appendAndSync hn hfollows.1 hentries hnil
          (by rw [hbecome.entries]; exact hshares.take_eq)
      have hreach : k ≤ n.nextFor peer - 1 + maxBatch := Nat.min_le_left _ _
      change ((m.becomeFollower n.log.currentTerm n.id).log.appendAndSync
        (n.appendEntriesReq peer).entries).entries.take k = _
      rw [hput, List.take_take, Nat.min_eq_left hreach]
  · change (m.handleAppendEntries (n.appendEntriesReq peer)).1.log.currentTerm = _
    rw [hlog, PersistentLog.appendAndSync_currentTerm]
    exact hfollows.2

/-- The leader hears of a voter. -/
theorem Awaits.insert {log : PersistentLog} (h : Awaits log e n) {p : NodeId}
    (hp : p ∈ n.config.voters) {k : Nat} (hk : k ≤ log.lastIndex) (next : Nat) :
    Awaits log e { n with
      matchIndex := n.matchIndex.insert p k
      nextIndex := n.nextIndex.insert p next } where
  log_eq := h.log_eq
  tracks := { h.tracks with
    keys := fun v => by
      rw [AList.mem_insert, h.tracks.keys]
      exact ⟨fun hv => hv.elim (fun heq => heq ▸ hp) fun hv => hv, .inr⟩
    le_lastIndex := fun x hx => by
      rcases KvStore.mem_insert hx with heq | hx
      · rw [heq, h.log_eq]
        exact hk
      · exact h.tracks.le_lastIndex x hx }
  plain := h.plain
  progress := h.progress

end RaftNode

namespace Cluster

open RaftNode

variable [StateMachine σ] {q voters : List NodeId} {c c' c'' : Cluster σ} {n p : NodeId}
  {log : PersistentLog} {e : LogEntry}

omit [StateMachine σ] in
/-- Timers and messages change no membership and take no snapshot. -/
theorem Ticks.steady {a : Action} (h : c.Ticks q a) : c.Steady a ∧ c.NoSnapshots a := by
  cases a with
  | timeout | heartbeat | deliver | reply => exact ⟨⟨rfl, rfl⟩, rfl⟩
  | _ => cases h.1

theorem NoSnapshots.keepsSnapshot {a : Action} (h : c.NoSnapshots a) : c.KeepsSnapshot a :=
  fun htakes => absurd (htakes.symm.trans h) (by decide)

theorem InOrder.ticks (h : c.InOrder) (hrun : Run Cluster.step (Ticks q) c c') : c'.InOrder :=
  h.run (hrun.mono fun _ _ hticks => hticks.steady.2.keepsSnapshot)

/-! ## Replication -/

/-- Nothing happens but to the leader `n` and to what it knows of `p`, and to `p`. -/
structure Serves (q : List NodeId) (n p : NodeId) (c c' : Cluster σ) : Prop where
  run : Run step (Ticks q) c c'
  others : ∀ m, m ≠ n → m ≠ p → c'.nodes m = c.nodes m
  next : ∀ v, v ≠ p → (c'.nodes n).nextFor v = (c.nodes n).nextFor v
  matched : ∀ v, v ≠ p → (c'.nodes n).matchIndex.lookup v = (c.nodes n).matchIndex.lookup v

theorem Serves.trans (h : Serves q n p c c') (h' : Serves q n p c' c'') : Serves q n p c c'' where
  run := h.run.trans h'.run
  others := fun m hn hp => (h'.others m hn hp).trans (h.others m hn hp)
  next := fun v hv => (h'.next v hv).trans (h.next v hv)
  matched := fun v hv => (h'.matched v hv).trans (h.matched v hv)

/-- A leader of the latest term, and the entry it waits for. -/
structure InService (q voters : List NodeId) (n : NodeId) (log : PersistentLog) (e : LogEntry)
    (c : Cluster σ) : Prop where
  members : ∀ m ∈ q, m ∈ c.members
  mem : n ∈ q
  id : (c.nodes n).id = n
  config : (c.nodes n).config.voters = voters
  leader : (c.nodes n).Awaits log e
  terms : ∀ m ∈ q, (c.nodes m).log.currentTerm ≤ log.currentTerm
  order : c.InOrder

namespace InService

theorem leads (h : InService q voters n log e c) (hp : p ∈ q) :
    Leads (c.nodes n, c.nodes p) :=
  ⟨h.leader.tracks.role, by simp only [h.leader.log_eq]; exact h.terms p hp⟩

/-- A heartbeat of the leader that reaches the peer with entries. -/
theorem exists_exchange (h : InService q voters n log e c) (hp : p ∈ q) (hne : p ≠ n)
    (hvoter : p ∈ voters) (hpos : 0 < (c.nodes n).nextFor p) :
    ∃ c', Run step (Ticks q) c c' ∧ c'.members = c.members ∧
      c'.nodes n = (exchange p (c.nodes n, c.nodes p)).1 ∧
      c'.nodes p = (exchange p (c.nodes n, c.nodes p)).2 ∧
      ∀ m, m ≠ n → m ≠ p → c'.nodes m = c.nodes m := by
  have hrpc : ((c.nodes n).replicateTo p).rpc =
      .appendEntries ((c.nodes n).appendEntriesReq p) := by
    refine if_neg ?_
    rw [(h.order.nodes n).log.snapshotIndex]
    exact Nat.not_le_of_lt hpos
  have hexchange := exists_heartbeat_exchange ⟨h.members n h.mem, h.mem⟩ ⟨h.members p hp, hp⟩
    hne.symm h.id (h.config ▸ hvoter) h.leader.tracks.role
  rw [hrpc] at hexchange
  exact hexchange

/-- The leader is still in service after a round. -/
theorem of_round (h : InService q voters n log e c) (hrun : Run step (Ticks q) c c')
    (hid : (c'.nodes n).id = (c.nodes n).id) (hconfig : (c'.nodes n).config = (c.nodes n).config)
    (hleader : (c'.nodes n).Awaits log e)
    (hterm : (c'.nodes p).log.currentTerm = log.currentTerm)
    (hothers : ∀ m, m ≠ n → m ≠ p → c'.nodes m = c.nodes m) : InService q voters n log e c' where
  members := forall_mem_members hrun h.members
  mem := h.mem
  id := hid.trans h.id
  config := by rw [hconfig]; exact h.config
  leader := hleader
  terms := fun m hm => by
    by_cases hmn : m = n
    · rw [hmn, hleader.log_eq]
    · by_cases hmp : m = p
      · rw [hmp, hterm]
      · rw [hothers m hmn hmp]
        exact h.terms m hm
  order := h.order.ticks hrun

/-- A peer whose log is too short is sent the log from the first index on. -/
theorem exists_reset (h : InService q voters n log e c) (hp : p ∈ q) (hne : p ≠ n)
    (hvoter : p ∈ voters) (hshort : (c.nodes p).log.lastIndex < (c.nodes n).nextFor p - 1) :
    ∃ c', Serves q n p c c' ∧ InService q voters n log e c' ∧ (c'.nodes n).nextFor p = 1 := by
  obtain ⟨c', hrun, -, hown, hpeer, hothers⟩ := h.exists_exchange hp hne hvoter (by omega)
  have heq := exchange_short (h.leads hp) (h.order.nodes p).log hshort
  rw [heq] at hown hpeer
  have hleader : (c'.nodes n).Awaits log e := by
    rw [hown]
    exact { h.leader with tracks := { h.leader.tracks with } }
  have hterm : (c'.nodes p).log.currentTerm = log.currentTerm := by
    rw [hpeer, ← h.leader.log_eq]
    exact (c.nodes p).becomeFollower_currentTerm (h.leads hp).term _
  refine ⟨c', ⟨hrun, hothers, fun v hv => ?_, fun v hv => ?_⟩,
    h.of_round hrun (by rw [hown]) (by rw [hown]) hleader hterm hothers, ?_⟩
  · rw [hown, nextFor, AList.lookup_insert_ne hv]
    rfl
  · rw [hown]
  · rw [hown, nextFor, AList.lookup_insert]
    rfl

/-- A peer that has what comes before gets the next entries. -/
theorem exists_next (h : InService q voters n log e c) (hlast : LastOfTerm log e) (hp : p ∈ q)
    (hne : p ≠ n) (hvoter : p ∈ voters) (hpos : 0 < (c.nodes n).nextFor p)
    (hshares : Shares (c.nodes n) (c.nodes p) ((c.nodes n).nextFor p - 1)) :
    let k := min ((c.nodes n).nextFor p - 1 + maxBatch) e.index
    ∃ c', Serves q n p c c' ∧ InService q voters n log e c' ∧
      (c'.nodes n).nextFor p = k + 1 ∧ Shares (c'.nodes n) (c'.nodes p) k ∧
      (c'.nodes n).matchIndex.lookup p = some k ∧
      ((c'.nodes n).HasQuorum e.index → (c'.nodes n).Answered e) := by
  intro k
  obtain ⟨c', hrun, -, hown, hpeer, hothers⟩ := h.exists_exchange hp hne hvoter hpos
  have hindex : (c.nodes n).log.lastIndex = e.index := by rw [h.leader.log_eq, hlast.index]
  obtain ⟨hleader, hshared, hterm⟩ := exchange_match (h.leads hp) (h.order.nodes n).log
    (h.order.nodes p).log hshares
  rw [hindex] at hleader hshared
  rw [← hown] at hleader
  rw [← hpeer] at hshared hterm
  -- the leader notes the match, and that may commit
  have hinsert := h.leader.insert (h.config ▸ hvoter) (hlast.index ▸ Nat.min_le_right _ _ :
    k ≤ log.lastIndex) (k + 1)
  obtain ⟨hawaits, hanswered⟩ := hinsert.tryAdvanceCommitIndex hlast
  have htables := tryAdvanceCommitIndex_tables (hinsert.log_eq ▸ hinsert.plain)
  -- advancing the commit index leaves the tables alone
  have hquorum : ∀ i, (c'.nodes n).HasQuorum i ↔ RaftNode.HasQuorum { c.nodes n with
      matchIndex := (c.nodes n).matchIndex.insert p k
      nextIndex := (c.nodes n).nextIndex.insert p (k + 1) } i := fun i => by
    unfold HasQuorum
    rw [hleader, htables.config, htables.id, htables.log, htables.matchIndex]
  rw [← hleader] at hawaits htables hanswered
  refine ⟨c', ⟨hrun, hothers, fun v hv => ?_, fun v hv => ?_⟩,
    h.of_round hrun htables.id htables.config hawaits (hterm.trans (by rw [h.leader.log_eq]))
      hothers, ?_, ?_, ?_, fun hall => hanswered ((hquorum _).mp hall)⟩
  · rw [nextFor, htables.nextIndex, AList.lookup_insert_ne hv]
    rfl
  · rw [htables.matchIndex, AList.lookup_insert_ne hv]
  · rw [nextFor, htables.nextIndex, AList.lookup_insert]
    rfl
  · have hlog : (c'.nodes n).log = (c.nodes n).log := htables.log
    exact ⟨by rw [hlog]; exact hshared.le, by rw [hlog]; exact hshared.take_eq⟩
  · rw [htables.matchIndex, AList.lookup_insert]

/-- Round by round the peer gets the whole log. -/
theorem exists_catchUp (h : InService q voters n log e c) (hlast : LastOfTerm log e) (hp : p ∈ q)
    (hne : p ≠ n) (hvoter : p ∈ voters) (hpos : 0 < (c.nodes n).nextFor p)
    (hshares : Shares (c.nodes n) (c.nodes p) ((c.nodes n).nextFor p - 1)) :
    ∃ c', Serves q n p c c' ∧ InService q voters n log e c' ∧
      (c'.nodes n).matchIndex.lookup p = some e.index ∧ e ∈ (c'.nodes p).log.entries ∧
      ((c'.nodes n).HasQuorum e.index → (c'.nodes n).Answered e) := by
  -- on the entries the peer still lacks
  induction hd : e.index - ((c.nodes n).nextFor p - 1) using Nat.strong_induction_on
    generalizing c with
  | _ d ih =>
      obtain ⟨c₁, hserves, h₁, hnext₁, hshared, hmatch, hanswered⟩ :=
        h.exists_next hlast hp hne hvoter hpos hshares
      have hnext : (c.nodes n).nextFor p - 1 ≤ e.index := by
        rw [← hlast.index, ← h.leader.log_eq]
        exact hshares.le
      set k := min ((c.nodes n).nextFor p - 1 + maxBatch) e.index with hk
      by_cases hend : k = e.index
      · refine ⟨c₁, hserves, h₁, hend ▸ hmatch, ?_, hanswered⟩
        -- the peer has the whole log of the leader, which ends with the entry
        have hwhole : e ∈ (c₁.nodes n).log.entries.take k := by
          rw [h₁.leader.log_eq, hend, ← hlast.length, List.take_length]
          exact hlast.mem
        rw [← hshared.take_eq] at hwhole
        exact List.mem_of_mem_take hwhole
      · have hprev : (c₁.nodes n).nextFor p - 1 = k := by rw [hnext₁, Nat.add_sub_cancel]
        have hbatch : k = (c.nodes n).nextFor p - 1 + 200 := by
          simp only [maxBatch] at hk
          omega
        obtain ⟨c₂, hserves', hrest⟩ := ih _ (by rw [hprev]; omega) h₁ (by omega)
          (hprev.symm ▸ hshared) rfl
        exact ⟨c₂, hserves.trans hserves', hrest⟩

/-- A leader whose log is longer than those of its peers brings its last entry to all of
them. -/
theorem exists_answered (h : InService q voters n log e c) (hlast : LastOfTerm log e)
    (hq : IsMajority voters q) {peers : List NodeId} (hpeers : ∀ p ∈ peers, p ∈ q ∧ p ≠ n)
    (hnodup : peers.Nodup) (hsome : peers ≠ [])
    (hshort : ∀ p ∈ peers, (c.nodes p).log.lastIndex < (c.nodes n).nextFor p - 1)
    (hothers : ∀ m ∈ q, m = n ∨ m ∈ peers ∨
      (c.nodes n).matchIndex.lookup m = some e.index ∧ e ∈ (c.nodes m).log.entries) :
    ∃ c', Run step (Ticks q) c c' ∧ (c'.nodes n).role = .leader ∧
      (∀ m ∈ q, e ∈ (c'.nodes m).log.entries) ∧ (c'.nodes n).Answered e := by
  induction peers generalizing c with
  | nil => exact absurd rfl hsome
  | cons p peers ih =>
      obtain ⟨hp, hpeers⟩ := List.forall_mem_cons.mp hpeers
      obtain ⟨hshort, hshorts⟩ := List.forall_mem_cons.mp hshort
      obtain ⟨hnotin, hnodup⟩ := List.nodup_cons.mp hnodup
      have hvoter := hq.sub p hp.1
      obtain ⟨c₁, hreset, h₁, hfirst⟩ := h.exists_reset hp.1 hp.2 hvoter hshort
      obtain ⟨c₂, hcatch, h₂, hmatch, hhas, hanswered⟩ := h₁.exists_catchUp hlast hp.1 hp.2 hvoter
        (by omega) (by rw [hfirst]; exact ⟨Nat.zero_le _, rfl⟩)
      -- the peer is reset to the beginning and gets everything
      have hserves := hreset.trans hcatch
      have hmatched : ∀ m ∈ q, m = n ∨ m ∈ peers ∨
          (c₂.nodes n).matchIndex.lookup m = some e.index ∧ e ∈ (c₂.nodes m).log.entries := by
        intro m hm
        by_cases hmp : m = p
        · exact .inr (.inr (hmp ▸ ⟨hmatch, hhas⟩))
        · by_cases hmn : m = n
          · exact .inl hmn
          · rw [hserves.matched m hmp, hserves.others m hmn hmp]
            exact (hothers m hm).imp_right fun hm =>
              hm.imp_left fun hm => (List.mem_cons.mp hm).resolve_left hmp
      by_cases hnil : peers = []
      · -- everybody has the entry now
        refine ⟨c₂, hserves.run, h₂.leader.tracks.role, fun m hm => ?_, hanswered ?_⟩
        · rcases hmatched m hm with rfl | hm | hm
          · rw [h₂.leader.log_eq]
            exact hlast.mem
          · rw [hnil] at hm
            cases hm
          · exact hm.2
        unfold HasQuorum
        rw [h₂.config]
        refine hq.countP fun m hm => ?_
        rw [decide_eq_true_eq]
        rcases hmatched m hm with rfl | hm | hm
        · exact .inl ⟨h₂.id.symm, by rw [h₂.leader.log_eq, hlast.index]⟩
        · rw [hnil] at hm
          cases hm
        · exact .inr (by rw [hm.1]; exact Nat.le_refl _)
      · obtain ⟨c₃, hrun, hdone⟩ := ih h₂ hpeers hnodup hnil (fun x hx => by
          have hxp : x ≠ p := fun heq => hnotin (heq ▸ hx)
          rw [hserves.others x (hpeers x hx).2 hxp, hserves.next x hxp]
          exact hshorts x hx) hmatched
        exact ⟨c₃, hserves.run.trans hrun, hdone⟩

end InService

/-! ## Longer and longer logs -/

/-- Next to a leader, another member of the majority can get into a later term. -/
theorem exists_later {s : Ghost} (hsim : Sim .votes voters c s) (hpeers : 2 ≤ voters.length)
    (hq : IsMajority voters q) (hmembers : ∀ m ∈ q, m ∈ c.members) (hn : n ∈ q)
    (hrole : (c.nodes n).role = .leader) :
    ∃ m ∈ q, m ≠ n ∧ ∃ c', Prepares q m c c' ∧
      (c.nodes n).log.currentTerm < (c'.nodes m).log.currentTerm := by
  have hvotes : ∀ m, VoteInv voters s m (c.nodes m) := fun m => (hsim.node m).votes
  obtain ⟨m, hm⟩ : ∃ m, m ∈ q.erase n := by
    have hlength := List.length_erase_of_mem hn
    have hmore := hq.more
    exact List.exists_mem_of_length_pos (by omega)
  obtain ⟨hne, hm⟩ := hq.nodup.mem_erase_iff.mp hm
  refine ⟨m, hm, hne, ?_⟩
  -- from where it does not lead, it stands until its term is later
  have hraise : ∀ x, Prepares q m c x → (x.nodes m).role ≠ .leader → ∃ c', Prepares q m c c' ∧
      (c.nodes n).log.currentTerm < (c'.nodes m).log.currentTerm := by
    intro x hx hrole
    have hmajority : 1 < (x.nodes m).majority := by
      rw [RaftNode.majority, hx.own.config, (hvotes m).config]
      omega
    obtain ⟨c', hc', -, hk⟩ := exists_raise ⟨hx.members ▸ hmembers m hm, hm⟩
      (hx.own.id.trans (hvotes m).id)
      (by rw [hx.own.config, (hvotes m).config]; exact hq.sub m hm) hmajority hrole
      ((c.nodes n).log.currentTerm + 1)
    exact ⟨c', hx.trans hc', hk⟩
  by_cases hlead : (c.nodes m).role = .leader
  · by_cases hlater : (c.nodes n).log.currentTerm < (c.nodes m).log.currentTerm
    · exact ⟨c, .refl q m c, hlater⟩
    · -- two leaders have different terms, so it leads an earlier one and is deposed
      have hlt : (c.nodes m).log.currentTerm < (c.nodes n).log.currentTerm := by
        refine Nat.lt_of_le_of_ne (Nat.le_of_not_lt hlater) fun hterm => hne ?_
        have hown := (hvotes n).leader hrole
        have hother := (hvotes m).leader hlead
        rw [← (hvotes n).term] at hown
        rw [← (hvotes m).term, hterm] at hother
        exact Option.some.inj (hother.symm.trans hown)
      obtain ⟨x, hx, hdeposed⟩ := exists_depose ⟨hmembers m hm, hm⟩ ⟨hmembers n hn, hn⟩
        (hvotes m).id ((hvotes m).config ▸ hq.sub n hn) hlead hlt
      exact hraise x hx hdeposed
  · exact hraise c (.refl q m c) hlead

/-- A member that has the votes of all others can be elected again, even if it leads. -/
theorem exists_elected {s : Ghost} (hsim : Sim .votes voters c s) (hpeers : 2 ≤ voters.length)
    (hq : IsMajority voters q) (hmembers : ∀ m ∈ q, m ∈ c.members) (hn : n ∈ q)
    (hlog : ∀ m ∈ q, (c.nodes m).logOk (c.nodes n).requestVoteReq) :
    ∃ c', Run step (Ticks q) c c' ∧ Elected q n c c' := by
  have hvotes : VoteInv voters s n (c.nodes n) := (hsim.node n).votes
  have helect : ∀ x, (∀ m, (c.nodes m).SameData (x.nodes m)) → x.members = c.members →
      (x.nodes n).role ≠ .leader → ∃ c', Run step (Ticks q) x c' ∧ Elected q n x c' :=
    fun x hsame hsameMembers hrole => exists_election hq (hsameMembers ▸ hmembers) hn
      ((hsame n).id.trans hvotes.id) (by rw [(hsame n).config]; exact hvotes.config) hrole
      fun m hm => ((hsame n).logOk_iff (hsame m)).mpr (hlog m hm)
  by_cases hrole : (c.nodes n).role = .leader
  · -- another member deposes it first
    obtain ⟨m, hm, hne, x, hx, hlater⟩ := exists_later hsim hpeers hq hmembers hn hrole
    have hsame : x.nodes n = c.nodes n := hx.others n hne.symm
    obtain ⟨y, hy, hdeposed⟩ := exists_depose (q := q) (c := x) (n := n) (m := m)
      ⟨hx.members ▸ hmembers n hn, hn⟩ ⟨hx.members ▸ hmembers m hm, hm⟩
      (by rw [hsame]; exact hvotes.id) (by rw [hsame, hvotes.config]; exact hq.sub m hm)
      (hsame ▸ hrole) (hsame ▸ hlater)
    -- now it is a follower, and with the same log it is elected
    obtain ⟨c', hrun, helected⟩ := helect y
      (fun m => (hx.sameData m).trans (hy.sameData m)) (hy.members.trans hx.members) hdeposed
    exact ⟨c', (hx.run.trans hy.run).trans hrun, (helected.of_prepares hy).of_prepares hx⟩
  · exact helect c (fun _ => .refl _) rfl hrole

/-- What the member is after an election in which it has peers. -/
theorem Elected.exists_lead (h : Elected q n c c') (hid : (c.nodes n).id = n)
    (hconfig : (c.nodes n).config.voters = voters) (hnodup : voters.Nodup) (hn : n ∈ voters)
    (hpeers : 2 ≤ voters.length) :
    ∃ nd, (c.nodes n).SameData nd ∧ nd.commitIndex = (c.nodes n).commitIndex ∧
      c'.nodes n = { nd.lead with log := nd.log.appendAndSync [nd.newEntry [] .noOp] } ∧
      (c'.nodes n).Unheard := by
  obtain ⟨nd, hrole, hsame, hcommit, heq⟩ := h.leader
  have hvoters : nd.config.voters = voters := by rw [hsame.config, hconfig]
  have hself : nd.id ∈ nd.config.voters := by rw [hvoters, hsame.id, hid]; exact hn
  have hlead := becomeLeader_of_peers hrole hself (hvoters ▸ hnodup) (hvoters ▸ hpeers)
  refine ⟨nd, hsame, hcommit, heq.trans hlead, ?_⟩
  rw [heq, hlead]
  exact .of_lead _ hself (hvoters ▸ hnodup) (hvoters ▸ hpeers)

/-- The member still has all votes. -/
theorem Elected.logOk (h : Elected q n c c') (horder : c.InOrder)
    (hlog : ∀ m ∈ q, (c.nodes m).logOk (c.nodes n).requestVoteReq) :
    ∀ m ∈ q, (c'.nodes m).logOk (c'.nodes n).requestVoteReq := by
  intro m hm
  by_cases hmn : m = n
  · exact hmn ▸ .inr ⟨rfl, Nat.le_refl _⟩
  obtain ⟨nd, hrole, hsame, -, heq⟩ := h.leader
  have hlast : (c'.nodes n).log.lastIndex = (c.nodes n).log.lastIndex + 1 ∧
      (c'.nodes n).log.lastTerm = nd.log.currentTerm := by
    rw [heq, becomeLeader_log hrole, lastIndex_newEntry, lastTerm_newEntry, hsame.lastIndex]
    exact ⟨rfl, rfl⟩
  have hterm : (c.nodes n).log.lastTerm ≤ nd.log.currentTerm := by
    refine Nat.le_trans ?_ hsame.term_le
    rw [(horder.nodes n).log.represents.lastTerm]
    exact (horder.nodes n).log.ordered.termAt_le _
  have hold := hlog m hm
  simp only [RaftNode.logOk, RaftNode.requestVoteReq, hlast.1, hlast.2, (h.others m hmn).lastIndex,
    (h.others m hmn).lastTerm] at hold ⊢
  omega

/-- Election after election the log of the leader gets longer, and nobody else's does. -/
theorem exists_longer {s : Ghost} (hsim : Sim .votes voters c s) (horder : c.InOrder)
    (hnodup : voters.Nodup) (hpeers : 2 ≤ voters.length) (hq : IsMajority voters q)
    (hmembers : ∀ m ∈ q, m ∈ c.members) (hn : n ∈ q)
    (hlog : ∀ m ∈ q, (c.nodes m).logOk (c.nodes n).requestVoteReq) (k : Nat) :
    ∃ x, Run step (Ticks q) c x ∧ k ≤ (x.nodes n).log.lastIndex ∧
      (∀ m ∈ q, (x.nodes m).logOk (x.nodes n).requestVoteReq) ∧
      (∀ m, m ≠ n → (x.nodes m).log.lastIndex = (c.nodes m).log.lastIndex) ∧
      (x.nodes n).commitIndex = (c.nodes n).commitIndex ∧
      (x.nodes n).lastApplied = (c.nodes n).lastApplied := by
  induction k with
  | zero => exact ⟨c, .refl c, Nat.zero_le _, hlog, fun _ _ => rfl, rfl, rfl⟩
  | succ k ih =>
      -- one more election, one more no-op at the end of its log
      obtain ⟨x, hrun, hk, hlog, hothers, hcommit, happlied⟩ := ih
      obtain ⟨s', -, hsim'⟩ := hsim.run hnodup (List.ne_nil_of_length_pos (by omega))
        (hrun.mono fun _ _ hticks => .votes hticks.steady.1)
      have hvotes := (hsim'.node n).votes
      obtain ⟨x', hrun', helected⟩ := exists_elected hsim' hpeers hq
        (forall_mem_members hrun hmembers) hn hlog
      obtain ⟨nd, hsame, hcommit', heq, -⟩ := helected.exists_lead hvotes.id hvotes.config hnodup
        (hq.sub n hn) hpeers
      refine ⟨x', hrun.trans hrun', ?_, helected.logOk (horder.ticks hrun) hlog,
        fun m hm => (helected.others m hm).lastIndex.trans (hothers m hm), ?_, ?_⟩
      · rw [heq]
        change k + 1 ≤ (nd.log.appendAndSync [nd.newEntry [] .noOp]).lastIndex
        rw [lastIndex_newEntry, hsame.lastIndex]
        omega
      · rw [heq, ← hcommit, ← hcommit']
        rfl
      · rw [heq, ← happlied, ← hsame.lastApplied]
        rfl

/-- The new leader takes a command: it waits for its peers to get it, each from the end
of the log it was elected with. -/
theorem Elected.exists_proposed {s : Ghost} (h : Elected q n c c')
    (hrun : Run step (Ticks q) c c') (hsim : Sim .votes voters c s) (horder : c.InOrder)
    (hnodup : voters.Nodup) (hpeers : 2 ≤ voters.length) (hq : IsMajority voters q)
    (hmembers : ∀ m ∈ q, m ∈ c.members) (hn : n ∈ q)
    (hcommit : (c.nodes n).commitIndex ≤ (c.nodes n).log.lastIndex)
    (happlied : (c.nodes n).lastApplied ≤ (c.nodes n).log.lastIndex) (commandBytes : Bytes) :
    ∃ c₂ log, c'.step (.propose n commandBytes) = some c₂ ∧
      RaftNode.LastOfTerm log ((c'.nodes n).newEntry commandBytes .command) ∧
      InService q voters n log ((c'.nodes n).newEntry commandBytes .command) c₂ ∧
      (∀ p ∈ voters, (c₂.nodes n).nextFor p = (c.nodes n).log.lastIndex + 1) ∧
      ∀ m, m ≠ n → c₂.nodes m = c'.nodes m := by
  have hsome : voters ≠ [] := List.ne_nil_of_length_pos (by omega)
  have hvotes := (hsim.node n).votes
  obtain ⟨nd, hsame, hcommit', heq, hunheard⟩ := h.exists_lead hvotes.id hvotes.config hnodup
    (hq.sub n hn) hpeers
  obtain ⟨hproposed, hunheard₂⟩ := hunheard.propose commandBytes .command
  set e := (c'.nodes n).newEntry commandBytes .command with he
  have hmembers' := forall_mem_members hrun hmembers
  have hstep : c'.step (.propose n commandBytes) =
      some (c'.put n ((c'.nodes n).propose commandBytes .command).1 []) := by
    simp only [step, ownStep]
    exact if_pos (hmembers' n hn)
  set c₂ := c'.put n ((c'.nodes n).propose commandBytes .command).1 [] with hc₂
  set log := (c'.nodes n).log.appendAndSync [e] with hlog
  have hown : c₂.nodes n = { c'.nodes n with log } := (put_nodes_self _ _ _ _).trans hproposed
  have hothers : ∀ m, m ≠ n → c₂.nodes m = c'.nodes m := fun m hm => put_nodes_of_ne hm _ _ _
  -- what runs of the cluster keep, in the state after the proposal
  have horder₂ : c₂.InOrder := (horder.ticks hrun).step (fun h => by cases h) hstep
  obtain ⟨s', -, hsim'⟩ := hsim.run hnodup hsome
    (hrun.mono fun _ _ hticks => .votes hticks.steady.1)
  have hok : c'.Followed .votes (.propose n commandBytes) := .votes ⟨rfl, rfl⟩
  obtain ⟨s₂, -, hsim₂⟩ := hsim'.step hnodup hsome hok hstep
  have hvotes₂ := (hsim₂.node n).votes
  have hlast : RaftNode.LastOfTerm log e := {
    order := by
      have horder := (horder₂.nodes n).log
      rwa [hown] at horder
    last := RaftNode.getLast?_newEntry _ _ _
    term := by rw [hlog, PersistentLog.appendAndSync_currentTerm]; rfl }
  -- the command comes behind the no-op of the new term
  have hindex : e.index = (c.nodes n).log.lastIndex + 2 := by
    change (c'.nodes n).log.lastIndex + 1 = _
    rw [heq]
    change (nd.log.appendAndSync [nd.newEntry [] .noOp]).lastIndex + 1 = _
    rw [RaftNode.lastIndex_newEntry, hsame.lastIndex]
  have hawaits : (c₂.nodes n).Awaits log e := {
    log_eq := by rw [hown]
    tracks := by rw [hown, ← hproposed]; exact hunheard₂.tracks
    plain := by
      have hplain := hvotes₂.plain
      rwa [hown] at hplain
    progress := by
      refine .inl ?_
      rw [hown, heq]
      change nd.commitIndex < e.index ∧ nd.lastApplied < e.index
      rw [hcommit', hsame.lastApplied]
      omega }
  refine ⟨c₂, log, hstep, hlast, ?_, fun p hp => ?_, hothers⟩
  · exact {
      members := hmembers'
      mem := hn
      id := hvotes₂.id
      config := hvotes₂.config
      leader := hawaits
      terms := fun m hm => by
        by_cases hmn : m = n
        · rw [hmn, hawaits.log_eq]
        · rw [hothers m hmn, hlog, PersistentLog.appendAndSync_currentTerm]
          exact h.latest m hm
      order := horder₂ }
  · have hvoter : p ∈ nd.config.voters := by
      rw [hsame.config, hvotes.config]
      exact hp
    rw [hown, heq, ← hsame.lastIndex, RaftNode.nextFor]
    change Option.getD (AList.lookup p (nd.config.voters.foldl
      (fun m v => m.insert v (nd.log.lastIndex + 1)) ∅ : AList fun _ : NodeId => Nat)) 1 = _
    rw [RaftNode.lookup_foldl_insert_of_mem hvoter]
    rfl

end Cluster

end KvRaft
