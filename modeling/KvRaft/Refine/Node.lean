import KvRaft.Refine.Relation

/-!
# KvRaft.Refine.Node

What a single node does, followed by moves of the replicated-log protocol:
learning of a term, standing for election, counting a vote, becoming leader,
appending, committing and applying entries, taking a snapshot, restarting.
Each function of `KvRaft.RaftNode` keeps `Tracks`, with the protocol moved by
what the function stands for.
-/

namespace KvRaft

open Replica

variable {σ : Type} {k : Scope} {voters : List NodeId} {s s' : Ghost} {n v : NodeId}
  {nd nd' : RaftNode σ}

/-- The protocol and one node that refines it. -/
structure Tracks (k : Scope) (voters : List NodeId) (s : Ghost) (n : NodeId) (nd : RaftNode σ) :
    Prop where
  global : Global k voters s
  node : NodeInv k voters s n nd

/-- A node that changes only its entries keeps its hard state and role. -/
theorem VoteInv.relog (h : VoteInv voters s n nd) (hid : nd'.id = nd.id)
    (hconfig : nd'.config = nd.config) (hinitial : nd'.initialConfig = nd.initialConfig)
    (hrole : nd'.role = nd.role) (hvotes : nd'.votes = nd.votes)
    (hnext : nd'.nextIndex = nd.nextIndex) (hsynced : nd'.log.Synced)
    (hterm : nd'.log.currentTerm = nd.log.currentTerm)
    (hvote : nd'.log.votedFor = nd.log.votedFor)
    (hplain : ∀ e ∈ nd'.log.entries, e.type ≠ .config) :
    VoteInv voters s n nd' where
  id := hid.trans h.id
  config := by rw [hconfig]; exact h.config
  initial := by rw [hinitial]; exact h.initial
  synced := hsynced
  term := hterm.trans h.term
  vote := hvote.trans h.vote
  candidate := by rw [hrole, hvotes]; exact h.candidate
  leader := by rw [hrole]; exact h.leader
  plain := hplain
  next_pos := by rw [hnext]; exact h.next_pos

theorem CommitInv.congr (h : CommitInv voters s n nd)
    (hsnap : nd'.log.snapshotIndex = nd.log.snapshotIndex)
    (hcommit : nd'.commitIndex = nd.commitIndex) (hlast : nd'.lastApplied = nd.lastApplied)
    (happlied : nd'.applied = nd.applied)
    (hmatch : nd'.role = .leader → nd.role = .leader ∧ nd'.matchIndex = nd.matchIndex) :
    CommitInv voters s n nd' where
  committed := by rw [hcommit]; exact h.committed
  commit_le := by rw [hcommit]; exact h.commit_le
  applied_committed := by rw [hlast]; exact h.applied_committed
  applied_le := by rw [hlast]; exact h.applied_le
  snap_le := by rw [hsnap, hlast]; exact h.snap_le
  matched := fun hr => by
    obtain ⟨hr', heq⟩ := hmatch hr
    rw [heq]
    exact h.matched hr'
  applied := by rw [happlied]; exact h.applied
  covered := by rw [hsnap, hlast, happlied]; exact h.covered

/-! ## Terms and votes -/

namespace Moves

variable {counted : NodeId → Nat → Prop}

theorem raise (s : Ghost) (n : NodeId) (t : Nat) : Moves n counted s (s.raise n t) :=
  ⟨.raise s n t, fun _ hm => .raise hm t, fun _ _ h => .inl h⟩

theorem castVote (s : Ghost) (n c : NodeId) : Moves n counted s (s.castVote n c) := by
  refine ⟨.castVote s n c, fun _ hm => .castVote hm c, fun v t h => .inl ?_⟩
  unfold State.castVote at h
  split at h <;> exact h

theorem stand (hE : Elections voters s) (n : NodeId) : Moves n counted s (s.stand n) :=
  ⟨.stand hE n, fun _ hm => .stand hm, fun _ _ h => .inl h⟩

theorem count (s : Ghost) (n v : NodeId) :
    Moves n (fun w t => w = v ∧ t = s.term n) s (s.count n v) := by
  refine ⟨.count s n v, fun _ hm => .count hm v, fun w t h => ?_⟩
  rcases set₂_cases s.tally n (s.term n) (v :: s.tally n (s.term n)) n t with
    ⟨_, ht, heq⟩ | ⟨_, heq⟩
  · subst ht
    have h' : w ∈ v :: s.tally n (s.term n) := heq ▸ h
    rcases List.mem_cons.mp h' with rfl | h'
    · exact .inr ⟨rfl, rfl⟩
    · exact .inl h'
  · exact .inl (heq ▸ h)

theorem elect (hE : Elections voters s) (n : NodeId) (hun : s.leader (s.term n) = none) :
    Moves n counted s (s.elect n) :=
  ⟨.elect hE n hun, fun _ hm => .elect hm, fun _ _ h => .inl h⟩

theorem append (s : Ghost) (n : NodeId) (e : LogEntry) : Moves n counted s (s.append n e) :=
  ⟨.append s n e, fun _ hm => .append hm e, fun _ _ h => .inl h⟩

theorem commitTo {t : Nat} (hl : s.leader t = some n) (i : Nat) :
    Moves n counted s (s.commitTo t i) :=
  ⟨.commitTo s t i, fun _ hm => .commitTo hm hl i, fun _ _ h => .inl h⟩

theorem acknowledge (s : Ghost) (n : NodeId) (i : Nat) : Moves n counted s (s.acknowledge n i) :=
  ⟨.acknowledge s n i, fun m _ => .acknowledge m n i, fun _ _ h => .inl h⟩

theorem replicate (s : Ghost) (n : NodeId) (i : Nat) : Moves n counted s (s.replicate n i) :=
  ⟨.replicate s n i, fun _ hm => .replicate hm i, fun _ _ h => .inl h⟩

theorem graft (s : Ghost) (n : NodeId) (p : List LogEntry) : Moves n counted s (s.graft n p) :=
  ⟨.graft s n p, fun _ hm => .graft hm p, fun _ _ h => .inl h⟩

end Moves

namespace Tracks

/-- `becomeFollower`: the node learns of a term. -/
theorem becomeFollower (h : Tracks k voters s n nd) (t : Nat) (l : NodeId) :
    Tracks k voters (s.raise n t) n (nd.becomeFollower t l) := by
  obtain ⟨hg, hn⟩ := h
  have hE := hg.elections
  have hterm : (s.raise n t).term n = max (s.term n) t := by simp [State.raise]
  have hx := Extends.raise s n t
  refine ⟨⟨hE.raise n t, hg.nonzero, fun hk => (hg.logs hk).raise hE n t, hg.indexed,
    fun hk => (hg.commits hk).raise n t⟩, ⟨?_, fun hk => ⟨?_, by intro hr; cases hr⟩,
    fun hk => ?_, fun hk => ?_, fun _ hr => by cases hr⟩⟩
  · have hv := hn.votes
    constructor
    · exact hv.id
    · exact hv.config
    · exact hv.initial
    · simp only [RaftNode.becomeFollower]
      split
      · exact hv.synced.setHardState t 0
      · exact hv.synced
    · -- both terms are now the larger of the two
      rw [hterm, ← hv.term]
      simp only [RaftNode.becomeFollower]
      split
      · rw [PersistentLog.setHardState_currentTerm]; omega
      · omega
    · rw [hterm]
      simp only [RaftNode.becomeFollower, hv.term]
      split
      · next hlt =>
        -- a new term: no vote was cast in it
        rw [Nat.max_eq_right (by omega)]
        cases hvote : s.vote n t with
        | none => simp [State.raise, hvote]
        | some c =>
            have := hE.vote_le n t c hvote
            omega
      · -- the same term: the vote stays
        rw [Nat.max_eq_left (by omega)]
        exact hv.vote
    · intro hr; cases hr
    · intro hr; cases hr
    · simp only [RaftNode.becomeFollower]
      split <;> exact hv.plain
    · exact hv.next_pos
  · simp only [RaftNode.becomeFollower]
    split
    · exact (hn.logs hk).log.setHardState t 0
    · exact (hn.logs hk).log
  · refine ⟨(hn.uncompacted hk).1, ?_⟩
    simp only [RaftNode.becomeFollower]
    split <;> exact (hn.uncompacted hk).2
  · -- what was committed in the old term is committed in the new one
    have hsnap : (nd.becomeFollower t l).log.snapshotIndex = nd.log.snapshotIndex := by
      simp only [RaftNode.becomeFollower]
      split <;> rfl
    have hm : CommitInv voters s n (nd.becomeFollower t l) :=
      (hn.commits hk).congr hsnap rfl rfl rfl (by intro hr; cases hr)
    exact hm.later hx rfl rfl (by intro hr; cases hr)

/-- A node that may vote for `c` has voted for nobody in its term, or for `c`. -/
theorem vote_cases (h : Tracks k voters s n nd) {c : NodeId}
    (hcan : nd.log.votedFor = 0 ∨ nd.log.votedFor = c) :
    s.vote n (s.term n) = none ∨ s.vote n (s.term n) = some c := by
  cases hvote : s.vote n (s.term n) with
  | none => exact .inl rfl
  | some x =>
      right
      have hfor := h.node.votes.vote
      rw [hvote, Option.getD_some] at hfor
      rcases hcan with h0 | hcx
      · exact absurd (hfor ▸ h0) (h.global.nonzero _ _ _ hvote).1
      · rw [← hfor, hcx]

/-- A vote: the hard state records it, and the protocol the log it was cast with. -/
theorem grant (h : Tracks k voters s n nd) {c : NodeId} (hc : c ≠ 0) (hpos : 0 < s.term n)
    (hterm : s.term n ≤ s.term c) (hcan : nd.log.votedFor = 0 ∨ nd.log.votedFor = c)
    (hup : k = .commits → UpToDate (s.stood c (s.term n)) (s.log n)) :
    Tracks k voters (s.castVote n c) n
        { nd with log := nd.log.setHardState nd.log.currentTerm c } ∧
      (s.castVote n c).vote n (s.term n) = some c := by
  have hcases := h.vote_cases hcan
  obtain ⟨hg, hn⟩ := h
  have hE := hg.elections
  have hv := hn.votes
  have hvoted := State.castVote_vote_self hcases
  have hglobal : Global k voters (s.castVote n c) := by
    refine ⟨hE.castVote n hterm, fun w t x hw => ?_, fun hk => (hg.logs hk).castVote n c, ?_,
      fun hk => (hg.commits hk).castVote hE n (hup hk)⟩
    · rcases State.castVote_vote_cases hw with hold | ⟨rfl, rfl⟩
      · exact hg.nonzero w t x hold
      · exact ⟨hc, hpos⟩
    · obtain ⟨vote, ballot, heq⟩ := s.castVote_eq n c
      rw [heq]
      exact hg.indexed
  refine ⟨⟨hglobal, ?_⟩, hvoted⟩
  have hx := Extends.castVote s n c
  obtain ⟨vote, ballot, heq⟩ := s.castVote_eq n c
  rw [heq] at hx hvoted ⊢
  refine ⟨⟨hv.id, hv.config, hv.initial, hv.synced.setHardState _ _, hv.term, ?_, fun hr => ?_,
    hv.leader, hv.plain, hv.next_pos⟩,
    fun hk => ⟨(hn.logs hk).log.setHardState _ _, (hn.logs hk).stood⟩, hn.uncompacted,
    fun hk => ?_, hn.led⟩
  · rw [hvoted]
    rfl
  · -- a candidate votes for itself, so it can only repeat its vote
    obtain ⟨hself, hl, ht⟩ := hv.candidate hr
    rcases hcases with hnone | hsome
    · rw [hnone] at hself
      contradiction
    · exact ⟨by rw [hvoted, ← hsome, hself], hl, ht⟩
  · exact ((hn.commits hk).mono hx rfl rfl rfl).congr rfl rfl rfl rfl fun hr => ⟨hr, rfl⟩

/-- The first half of `becomeCandidate`: the node stands in the next term. -/
theorem stand (h : Tracks k voters s n nd) (hn0 : n ≠ 0) {f : Nat → Nat}
    (hf : n ∈ voters → f (s.term n + 1) = 0) :
    Tracks k voters (s.stand n) n { nd.stand with votes := f } := by
  obtain ⟨hg, hn⟩ := h
  have hE := hg.elections
  have hv := hn.votes
  have hterm : (s.stand n).term n = s.term n + 1 := by simp [State.stand]
  have hx := Extends.stand hE n
  refine ⟨⟨hE.stand n, ?_, fun hk => (hg.logs hk).stand hE n, hg.indexed,
    fun hk => (hg.commits hk).stand hE n⟩, ⟨?_, fun hk => ⟨?_, fun _ => ?_⟩, fun hk => ?_,
    fun hk => ?_, fun _ hr => by cases hr⟩⟩
  · -- the only new vote is its own
    intro w t c hw
    rcases set₂_cases s.vote n (s.term n + 1) (some n) w t with ⟨rfl, rfl, heq⟩ | ⟨_, heq⟩
    · have hwc : w = c := Option.some.inj (heq.symm.trans hw)
      exact ⟨hwc ▸ hn0, by omega⟩
    · exact hg.nonzero w t c (heq ▸ hw)
  · constructor
    · exact hv.id
    · exact hv.config
    · exact hv.initial
    · exact hv.synced.setHardState _ _
    · rw [hterm, ← hv.term]; rfl
    · -- the vote is for itself
      rw [hterm]
      simp only [RaftNode.stand, PersistentLog.setHardState_votedFor, State.stand, set₂_self,
        Option.getD_some]
      exact hv.id
    · intro _
      rw [hterm]
      refine ⟨by simp [State.stand], fun hl => ?_, fun hmem => ?_⟩
      · -- nobody can lead a term the node enters only now
        have := (hE.leader_le _ n hl).2
        omega
      · change f (s.term n + 1) = _
        rw [hf hmem]
        -- no one can have voted for the node in a term it had not reached
        cases htally : s.tally n (s.term n + 1) with
        | nil => exact (congrArg List.length htally).symm
        | cons w _ =>
            have hw : w ∈ s.tally n (s.term n + 1) := by rw [htally]; exact List.mem_cons_self
            have := hE.stood_le _ _ _ (hE.tally_vote n _ w hw)
            omega
    · intro hr; cases hr
    · exact hv.plain
    · exact hv.next_pos
  · exact (hn.logs hk).log.setHardState _ _
  · rw [hterm]
    simp [State.stand]
  · exact hn.uncompacted hk
  · have hm : CommitInv voters s n { nd.stand with votes := f } :=
      (hn.commits hk).congr rfl rfl rfl rfl (by intro hr; cases hr)
    exact hm.later hx rfl rfl (by intro hr; cases hr)

/-- A candidate counts one more vote. -/
theorem count (h : Tracks k voters s n nd) (hr : nd.role = .candidate) (hn : n ∈ voters)
    (hvote : s.vote v (s.term n) = some n) (hnew : v ∉ s.tally n (s.term n)) (hv : v ∈ voters) :
    Tracks k voters (s.count n v) n
      { nd with votes := Function.update nd.votes (s.term n) (nd.votes (s.term n) + 1) } := by
  obtain ⟨hg, hnode⟩ := h
  have hE := hg.elections
  have hvi := hnode.votes
  obtain ⟨hself, hl, hcount⟩ := hvi.candidate hr
  refine ⟨⟨hE.count n hvote hnew hv, hg.nonzero, fun hk => (hg.logs hk).count n v, hg.indexed,
    fun hk => (hg.commits hk).count n v hl⟩, ⟨?_,
    fun hk => ⟨(hnode.logs hk).log, (hnode.logs hk).stood⟩, hnode.uncompacted, fun hk => ?_,
    hnode.led⟩⟩
  · refine ⟨hvi.id, hvi.config, hvi.initial, hvi.synced, hvi.term, hvi.vote, fun _ => ?_,
      fun hr' => ?_, hvi.plain, hvi.next_pos⟩
    · refine ⟨hself, hl, fun _ => ?_⟩
      simp [State.count, hcount hn]
    · rw [hr] at hr'; cases hr'
  · exact ((hnode.commits hk).mono (Extends.count s n v) rfl rfl rfl).congr rfl rfl rfl rfl
      (fun hr => ⟨hr, rfl⟩)

end Tracks

/-! ## Leaders -/

/-- A table filled with one value holds that value where it holds anything. -/
theorem lookup_foldl_insert {x : Nat} {l : List NodeId} {m : AList fun _ : NodeId => Nat} {y : Nat}
    (h : (l.foldl (fun m v => m.insert v x) m).lookup v = some y) :
    (v ∈ l ∧ y = x) ∨ m.lookup v = some y := by
  induction l generalizing m with
  | nil => exact .inr h
  | cons w l ih =>
      rcases ih h with ⟨hmem, hy⟩ | hm
      · exact .inl ⟨List.mem_cons_of_mem w hmem, hy⟩
      · by_cases hv : v = w
        · subst hv
          rw [AList.lookup_insert] at hm
          exact .inl ⟨List.mem_cons_self, (Option.some.inj hm).symm⟩
        · rw [AList.lookup_insert_ne hv] at hm
          exact .inr hm

namespace Tracks

/-- The first half of `becomeLeader`: a candidate with a majority leads its term. -/
theorem lead (h : Tracks k voters s n nd) (hr : nd.role = .candidate) (hn : n ∈ voters)
    (hmaj : voters.length / 2 + 1 ≤ nd.votes (s.term n)) :
    s.leader (s.term n) = none ∧ Tracks k voters (s.elect n) n nd.lead := by
  obtain ⟨hg, hnode⟩ := h
  have hE := hg.elections
  have hvi := hnode.votes
  obtain ⟨hself, hl, hcount⟩ := hvi.candidate hr
  -- the counter is the length of the tally, so the tally is a majority
  have hwon : IsMajority voters (s.tally n (s.term n)) := by
    refine ⟨hE.tally_nodup _ _, hE.tally_sub _ _, ?_⟩
    rw [hcount hn] at hmaj
    omega
  have hun := hE.unled_of_majority hwon hl
  have hpos : 0 < s.term n := (hg.nonzero _ _ _ hself).2
  have hx := Extends.elect hE n hun
  -- a log that wins an election is followed up to its end
  have hclean : k ≠ .votes → s.Clean n := by
    intro hk
    cases k with
    | votes => exact absurd rfl hk
    | logs => exact (hnode.uncompacted rfl).1
    | commits =>
        exact (hg.commits rfl).clean_of_majority hE (hg.logs hk) hun ((hnode.logs hk).stood hr) hwon
  refine ⟨hun, ⟨hE.elect n hpos hn hwon, hg.nonzero,
    fun hk => (hg.logs hk).elect hE n hun (hclean hk), fun hk t => ?_, fun hk => ?_⟩,
    ⟨⟨hvi.id, hvi.config, hvi.initial, hvi.synced, hvi.term, hvi.vote, ?_, ?_, hvi.plain, ?_⟩,
      fun hk => ⟨(hnode.logs hk).log, by intro hr'; cases hr'⟩, hnode.uncompacted, fun hk => ?_,
      fun hk _ => ?_⟩⟩
  · -- the history of the new term starts as the leader's log
    by_cases ht : t = s.term n
    · subst ht
      simp only [State.elect, Function.update_self]
      exact (hnode.logs hk).log.indexed
    · simp only [State.elect, Function.update_of_ne ht]
      exact hg.indexed hk t
  · have hk' : k ≠ .votes := by rw [hk]; simp
    exact (hg.commits hk).elect hE (hg.logs hk') n hun (hclean hk') ((hnode.logs hk').stood hr)
  · intro hr'; cases hr'
  · intro _; simp [State.elect]
  · -- a new leader's next indices lie behind its log
    intro v i hv
    rcases lookup_foldl_insert hv with ⟨_, rfl⟩ | hempty
    · exact Nat.succ_pos _
    · rw [AList.lookup_empty] at hempty
      contradiction
  · have hm : CommitInv voters (s.elect n) n nd := (hnode.commits hk).mono hx rfl rfl rfl
    refine ⟨hm.committed, hm.commit_le, hm.applied_committed, hm.applied_le, hm.snap_le,
      fun _ v i hv _ => ?_, hm.applied, hm.covered⟩
    -- nothing is matched yet
    rcases lookup_foldl_insert hv with ⟨hmem, rfl⟩ | hempty
    · exact ⟨hvi.config ▸ hmem, Nat.zero_le _, .inl (Nat.zero_le _)⟩
    · rw [AList.lookup_empty] at hempty
      contradiction
  · -- no leader has committed anything in the term yet
    have hnone : s.commit (s.term n) = 0 := (hg.commits hk).commit_unled hE hun
    exact hnone.symm ▸ Nat.zero_le _

/-- What a leader has committed and applied stays so when it appends an entry. -/
theorem commits_append (h : Tracks k voters s n nd) (hk : k = .commits) (e : LogEntry) :
    CommitInv voters (s.append n e) n { nd with log := nd.log.appendAndSync [e] } := by
  have hk' : k ≠ .votes := by rw [hk]; simp
  have hm := h.node.commits hk
  have hbase := (h.global.logs hk').base_le n
  have hcommit := hm.commit_le
  have hlast := hm.applied_le
  have hx := Extends.append s n e
  have hlog : (s.append n e).log n = s.log n ++ [e] := by simp [State.append]
  have hbase' : (s.append n e).base n = (s.log n).length + 1 := by simp [State.append]
  refine ⟨?_, ?_, ?_, ?_, ?_, fun hr v i hv hne => ?_, fun e he => ?_, ?_⟩
  · change Committed _ _ (List.take nd.commitIndex _)
    rw [hlog, List.take_append_of_le_length (by omega)]
    exact hm.committed.mono hx
  · rw [hbase']
    exact Nat.le_trans hcommit (by omega)
  · change Committed _ _ (List.take nd.lastApplied _)
    rw [hlog, List.take_append_of_le_length (by omega)]
    exact hm.applied_committed.mono hx
  · rw [hbase']
    exact Nat.le_trans hlast (by omega)
  · rw [PersistentLog.appendAndSync_snapshotIndex]; exact hm.snap_le
  · exact (hm.matched hr v i hv hne).imp_right (Matched.mono hx)
  · obtain ⟨p, hp, hmem⟩ := hm.applied e he
    exact ⟨p, hp.mono hx, hmem⟩
  · -- what was applied lies below the new entry
    rw [PersistentLog.appendAndSync_snapshotIndex, hlog]
    intro i e hi hi' he
    have hlt : i < nd.lastApplied := hi'
    rw [List.getElem?_append_left (by omega)] at he
    exact hm.covered i e hi hi' he

/-- The entry a leader proposes goes to the end of its log. -/
theorem append [StateMachine σ] (h : Tracks k voters s n nd) (hr : nd.role = .leader)
    (data : Bytes) {type : EntryType} (htype : type ≠ .config) :
    Tracks k voters (s.append n (nd.newEntry data type)) n
      { nd with log := nd.log.appendAndSync [nd.newEntry data type] } := by
  have hcommits := fun hk => h.commits_append hk (nd.newEntry data type)
  obtain ⟨hg, hnode⟩ := h
  have hE := hg.elections
  have hvi := hnode.votes
  have hl := hvi.leader hr
  have hled : s.leader (s.term n) ≠ none := by rw [hl]; simp
  have hterm : (nd.newEntry data type).term = s.term n := hvi.term
  have hindex : k ≠ .votes → (nd.newEntry data type).index = (s.log n).length + 1 := fun hk =>
    congrArg (· + 1) (hnode.logs hk).log.lastIndex
  refine ⟨⟨hE.append n _ hled, hg.nonzero, fun hk => (hg.logs hk).append n _ hl hterm,
    fun hk t => ?_, fun hk => ?_⟩,
    ⟨⟨hvi.id, hvi.config, hvi.initial, hvi.synced.appendAndSync _, ?_, ?_, ?_, ?_, ?_,
      hvi.next_pos⟩,
      fun hk => ⟨?_, ?_⟩, fun hk => ?_, hcommits, hnode.led⟩⟩
  · -- only the history of the leader's own term grows
    by_cases ht : t = s.term n
    · subst ht
      simp only [State.append, Function.update_self]
      refine (hg.indexed hk _).append ?_
      refine .singleton ?_
      rw [hindex hk, ((hg.logs hk).lead _ n hl rfl).1, Nat.zero_add]
    · simp only [State.append, Function.update_of_ne ht]
      exact hg.indexed hk t
  · have hk' : k ≠ .votes := by rw [hk]; simp
    exact (hg.commits hk).append hE (hg.logs hk') n _ hl hterm
  · rw [PersistentLog.appendAndSync_currentTerm]; exact hvi.term
  · rw [PersistentLog.appendAndSync_votedFor]; exact hvi.vote
  · intro hr'; rw [hr] at hr'; cases hr'
  · intro _; exact hl
  · -- the new entry is no configuration
    intro e he
    rcases nd.log.mem_appendAndSync_entries _ he with he | he
    · exact hvi.plain e he
    · rw [List.mem_singleton.mp he]; exact htype
  · -- the log and the file grow by the same entry
    have hrep := (hnode.logs hk).log.appendAndSync (hnode.logs hk).log.snap_le (Nat.le_refl _)
      (List.cons_ne_nil (nd.newEntry data type) []) (.singleton (hindex hk))
    rw [List.take_length] at hrep
    simpa only [State.append, Function.update_self] using hrep
  · intro hr'; rw [hr] at hr'; cases hr'
  · obtain ⟨_, hsnap⟩ := hnode.uncompacted hk
    refine ⟨by simp [State.Clean, State.append], ?_⟩
    rw [PersistentLog.appendAndSync_snapshotIndex]
    exact hsnap

end Tracks

/-! ## Committing and applying -/

namespace Tracks

/-- An index at which a leader has an entry of its own term lies within its log. -/
theorem own_index (h : Tracks k voters s n nd) (hk : k ≠ .votes) (hr : nd.role = .leader) {i : Nat}
    (hterm : nd.log.termAt i = nd.log.currentTerm) :
    i ≤ (s.log n).length ∧ termAt (s.log n) i = s.term n := by
  have hvi := h.node.votes
  have hrep := (h.node.logs hk).log
  -- index 0 and what is not in the log have term 0
  have hpos := (h.global.elections.leader_le _ n (hvi.leader hr)).1
  have hsnap : nd.log.snapshotIndex ≤ i := by
    by_contra hlt
    rw [PersistentLog.Represents.termAt_of_lt (by omega), hvi.term] at hterm
    omega
  rw [hrep.termAt hsnap, hvi.term] at hterm
  refine ⟨?_, hterm⟩
  by_contra hlt
  rw [termAt_of_length_lt (by omega)] at hterm
  omega

/-- What a majority matches, it has acknowledged in the leader's term, unless it is
committed. -/
theorem acked_or_committed (h : Tracks k voters s n nd) (hk : k = .commits)
    (hr : nd.role = .leader) {i : Nat} (hlen : i ≤ (s.log n).length)
    (hi : nd.sortedMatches[nd.config.voters.length / 2]? = some i) :
    (∃ q, IsMajority voters q ∧ ∀ v ∈ q, i ≤ s.acked v (s.term n)) ∨
      Committed s (s.term n) ((s.log n).take i) := by
  have hvi := h.node.votes
  have hm := h.node.commits hk
  have hl := hvi.leader hr
  obtain ⟨hlog, -⟩ := (h.global.logs (by rw [hk]; simp)).lead _ n hl rfl
  rw [hvi.config] at hi
  obtain ⟨q, hq, hreach⟩ := RaftNode.majority_of_sortedMatches (n := nd)
    (by rw [hvi.id]; exact h.global.elections.member _ n hl)
    (fun v j hv hne => (hm.matched hr v j hv (by rwa [hvi.id] at hne)).1) hi
  by_contra hno
  rw [not_or] at hno
  refine hno.1 ⟨q, hq, fun v hv => ?_⟩
  rcases hreach v hv with ⟨rfl, -⟩ | ⟨j, hj, hne, hij⟩
  · -- the leader itself has acknowledged its log
    rw [hvi.id, (h.global.commits hk).acked_lead _ n hl, ← hlog]
    exact hlen
  · rw [hvi.id] at hne
    rcases (hm.matched hr v j hj hne).2.2 with ha | hc
    · exact Nat.le_trans hij ha
    · rw [← hlog] at hc
      exact absurd (hc.of_isPrefix (List.take_prefix_take_left hij)) hno.2

/-- The commit index of a leader goes to an index a majority has, of the
leader's own term: the protocol commits it, or has already. -/
theorem advance (h : Tracks k voters s n nd) (hr : nd.role = .leader) {i : Nat}
    (hgt : nd.commitIndex < i)
    (hi : nd.sortedMatches[nd.config.voters.length / 2]? = some i)
    (hterm : nd.log.termAt i = nd.log.currentTerm) :
    ∃ s', Moves n noVote s s' ∧ Tracks k voters s' n { nd with commitIndex := i } := by
  by_cases hk : k = .commits
  swap
  · obtain ⟨hg, hnode⟩ := h
    exact ⟨s, .refl n _ s, hg, { hnode.votes with }, fun hk' => { hnode.logs hk' with },
      hnode.uncompacted, fun hk' => absurd hk' hk, fun hk' => absurd hk' hk⟩
  have hk' : k ≠ .votes := by rw [hk]; simp
  obtain ⟨hlen, hterm⟩ := h.own_index hk' hr hterm
  have hacked := h.acked_or_committed hk hr hlen hi
  obtain ⟨hg, hnode⟩ := h
  have hvi := hnode.votes
  have hm := hnode.commits hk
  have hl := hvi.leader hr
  obtain ⟨hlog, hclean⟩ := (hg.logs hk').lead _ n hl rfl
  have hcommit_le : i ≤ s.base n := by rw [hclean]; exact hlen
  rcases hacked with ⟨q, hq, hall⟩ | hc
  · -- the protocol commits the prefix now
    set s' := s.commitTo (s.term n) i with hs'
    have hcommit : s'.commit (s.term n) = max (s.commit (s.term n)) i := by
      simp only [hs', State.commitTo, Function.update_self]
    have hm' : CommitInv voters s' n nd := hm.mono (.commitTo s _ i) rfl rfl rfl
    have hled := hnode.led hk hr
    refine ⟨s', .commitTo hl i, ⟨hg.elections.commitTo _ i, hg.nonzero,
      fun hk => (hg.logs hk).commitTo _ i, hg.indexed, fun hk => ?_⟩, { hvi with },
      fun hk => { hnode.logs hk with }, hnode.uncompacted,
      fun _ => { hm' with committed := ?_, commit_le := hcommit_le }, fun _ _ => ?_⟩
    · exact (hg.commits hk).commitTo (hlog ▸ hlen) (hlog ▸ hterm) hq hall
    · refine ⟨s.term n, Nat.le_refl _, ?_⟩
      change (s.log n).take i <+: (s.hist (s.term n)).take (s'.commit (s.term n))
      rw [hlog, hcommit]
      exact List.take_prefix_take_left (Nat.le_max_right _ _)
    · change s'.commit (s.term n) ≤ i
      omega
  · -- it has done so before
    exact ⟨s, .refl n _ s, hg, { hvi with }, fun hk => { hnode.logs hk with }, hnode.uncompacted,
      fun _ => { hm with committed := hc, commit_le := hcommit_le },
      fun hk _ => Nat.le_trans (hnode.led hk hr) (Nat.le_of_lt hgt)⟩

variable [StateMachine σ]

/-- `applyCommittedEntries` applies what the protocol has committed. -/
theorem applyCommittedEntries (h : Tracks k voters s n nd) :
    Tracks k voters s n nd.applyCommittedEntries := by
  obtain ⟨hg, hnode⟩ := h
  have hvi := hnode.votes
  obtain ⟨sm, pr, records, hrecords, heq⟩ := RaftNode.foldl_applyEntry_plain
    (fun e he => hvi.plain e (RaftNode.mem_collect he)) nd.claim
  rw [RaftNode.applyCommittedEntries, RaftNode.toApply, heq]
  refine ⟨hg, { hvi with }, fun hk => { hnode.logs hk with }, hnode.uncompacted, fun hk => ?_,
    hnode.led⟩
  have hk' : k ≠ .votes := by rw [hk]; simp
  have hm := hnode.commits hk
  have hbatch := RaftNode.collect_eq (hnode.logs hk').log hm.snap_le
    (nd.commitIndex - nd.lastApplied)
  have hlen : nd.toApply.length ≤ nd.commitIndex - nd.lastApplied := by
    rw [RaftNode.toApply, hbatch, List.length_take]
    exact Nat.min_le_left _ _
  -- what is claimed ends at the commit index, or nothing is
  have hend : nd.lastApplied + nd.toApply.length ≤ nd.commitIndex ∨ nd.toApply.length = 0 := by
    omega
  refine ⟨hm.committed, hm.commit_le, ?_, ?_, ?_, hm.matched, fun o ho => ?_,
    fun i e hi hlt he => ?_⟩
  · -- the applied prefix ends at the commit index at the latest
    change Committed _ _ ((s.log n).take (nd.lastApplied + nd.toApply.length))
    rcases hend with hle | h0
    · exact hm.committed.of_isPrefix (List.take_prefix_take_left hle)
    · rw [h0]; exact hm.applied_committed
  · change nd.lastApplied + nd.toApply.length ≤ _
    rcases hend with hle | h0
    · exact Nat.le_trans hle hm.commit_le
    · rw [h0]; exact hm.applied_le
  · exact Nat.le_trans hm.snap_le (Nat.le_add_right _ _)
  · rcases List.mem_append.mp ho with ho | ho
    · exact hm.applied o ho
    · -- the batch lies below the commit index
      refine ⟨_, hm.committed, ?_⟩
      have he : o.entry ∈ records.map Applied.entry := List.mem_map_of_mem ho
      rw [hrecords, hbatch] at he
      obtain ⟨j, hj, hje⟩ := List.getElem_of_mem he
      rw [← hje, List.getElem_take, List.getElem_drop]
      rw [List.length_take, List.length_drop] at hj
      exact List.mem_take_iff_getElem.mpr ⟨nd.lastApplied + j, by omega, rfl⟩
  · rw [List.map_append, hrecords]
    refine List.mem_append.mpr ?_
    by_cases hold : i < nd.lastApplied
    · exact .inl (hm.covered i e hi hold he)
    · -- an entry of the batch is among the new records
      right
      have hlt' : i < nd.lastApplied + (RaftNode.collect nd.log nd.lastApplied
        (nd.commitIndex - nd.lastApplied)).length := hlt
      rw [hbatch] at hlt' ⊢
      rw [List.length_take, List.length_drop] at hlt'
      refine List.mem_of_getElem? (i := i - nd.lastApplied) ?_
      rw [List.getElem?_take_of_lt (by omega), List.getElem?_drop,
        Nat.add_sub_cancel' (by omega), he]

theorem tryAdvanceCommitIndex (h : Tracks k voters s n nd) :
    ∃ s', Moves n noVote s s' ∧ Tracks k voters s' n nd.tryAdvanceCommitIndex := by
  unfold RaftNode.tryAdvanceCommitIndex
  split
  · exact ⟨s, .refl n _ s, h⟩
  · next hr =>
    have hr : nd.role = .leader := by simpa using hr
    split
    · exact ⟨s, .refl n _ s, h⟩
    · next i hi =>
      split
      · next hcond =>
        obtain ⟨s', hmv, ht⟩ := h.advance hr hcond.1 hi hcond.2
        exact ⟨s', hmv, ht.applyCommittedEntries⟩
      · exact ⟨s, .refl n _ s, h⟩

/-- `propose`: an entry that changes no configuration. -/
theorem propose (h : Tracks k voters s n nd) (data : Bytes) (type : EntryType)
    (htype : type ≠ .config) :
    ∃ s', Moves n noVote s s' ∧ Tracks k voters s' n (nd.propose data type).1 := by
  unfold RaftNode.propose
  split
  · exact ⟨s, .refl n _ s, h⟩
  · next hr =>
    obtain ⟨s', hmv, ht⟩ := (h.append (by simpa using hr) data htype).tryAdvanceCommitIndex
    exact ⟨s', .trans (.append s n _) hmv, ht⟩

end Tracks

end KvRaft
