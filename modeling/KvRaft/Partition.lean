import KvRaft.AppendOnly
import KvRaft.Available
import KvRaft.TestTransport
import KvRaft.VoteCount

/-!
# KvRaft.Partition

A part of the cluster that no message leaves or enters, as `FaultyNetwork.partition`
makes it.  What happens there is a run of the cluster in which only that part takes
part (`FaultyNetwork.Follows.run`), and the voters outside stay what they were.

* `Replica.State.close` — a node will not vote in a term it has let pass: the
  protocol may as well note that it voted for itself;
* `minority_elects_nobody` — without a majority of the voters, no node comes to lead
  a term later than the one it had when it was cut off;
* `cut_off_leader_commits_nothing` — and the leader of such a part commits nothing
  beyond what it had committed or knew the others to have.
-/

namespace KvRaft

/-! ## Terms that have passed -/

namespace Replica

variable {ι ε : Type} {voters : List ι} {s : State ι ε}

/-- Each node of `p` votes for itself in the terms it has let pass. -/
def State.close (s : State ι ε) (p : ι → Bool) : State ι ε :=
  { s with vote := fun v t =>
      (s.vote v t).or (if p v ∧ 0 < t ∧ t < s.term v then some v else none) }

theorem State.close_vote (s : State ι ε) (p : ι → Bool) {v c : ι} {t : Nat} :
    (s.close p).vote v t = some c ↔
      s.vote v t = some c ∨ s.vote v t = none ∧ p v = true ∧ 0 < t ∧ t < s.term v ∧ c = v := by
  simp only [close, Option.or_eq_some_iff, Option.ite_none_right_eq_some, Option.some.injEq]
  tauto

/-- In its current term a node still has its vote. -/
theorem State.close_vote_term (s : State ι ε) (p : ι → Bool) (v : ι) :
    (s.close p).vote v (s.term v) = s.vote v (s.term v) := by
  simp [close]

theorem Extends.close (s : State ι ε) (p : ι → Bool) : Extends s (s.close p) where
  term _ := Nat.le_refl _
  vote _ _ _ h := (s.close_vote p).mpr (.inl h)
  stood _ _ _ := rfl
  leader _ _ h := h
  elected _ _ _ := rfl
  hist _ := List.prefix_refl _
  acked _ _ := Nat.le_refl _
  commit _ := Nat.le_refl _

theorem Elections.close (h : Elections voters s) (p : ι → Bool) :
    Elections voters (s.close p) where
  vote_le := fun v t c hv => by
    obtain hv | ⟨-, -, -, hlt, -⟩ := (s.close_vote p).mp hv
    · exact h.vote_le v t c hv
    · exact Nat.le_of_lt hlt
  stood_le := fun v t c hv => by
    obtain hv | ⟨-, -, -, hlt, rfl⟩ := (s.close_vote p).mp hv
    · exact h.stood_le v t c hv
    · exact Nat.le_of_lt hlt
  tally_vote := fun c t v hv => (s.close_vote p).mpr (.inl (h.tally_vote c t v hv))
  tally_nodup := h.tally_nodup
  tally_sub := h.tally_sub
  won := h.won
  leader_le := h.leader_le
  member := h.member
  unled := h.unled

end Replica

open Replica

variable {σ : Type} {voters : List NodeId} {c c' : Cluster σ} {s s' : Ghost}
  {P : NodeId → Prop}

/-- The protocol behind a cluster may close the terms that have passed. -/
theorem Sim.close (h : Sim .votes voters c s) : Sim .votes voters c (s.close (· ≠ 0)) where
  members := h.members
  global := {
    elections := h.global.elections.close _
    -- a vote that closing adds is a node's own, in a term that has passed
    nonzero := fun v t x hv => by
      obtain hv | ⟨-, hne, hpos, -, rfl⟩ := (s.close_vote _).mp hv
      · exact h.global.nonzero v t x hv
      · exact ⟨of_decide_eq_true hne, hpos⟩
    logs := fun hk => absurd rfl hk
    indexed := fun hk => absurd rfl hk
    commits := fun hk => by cases hk }
  node := fun n => {
    votes := { (h.node n).votes with
      -- the vote of the current term is what it was
      vote := by
        rw [(h.node n).votes.vote]
        exact congrArg (·.getD 0) (s.close_vote_term _ n).symm
      candidate := fun hrole => by
        obtain ⟨hvote, hrest⟩ := (h.node n).votes.candidate hrole
        exact ⟨(s.close_vote _).mpr (.inl hvote), hrest⟩ }
    logs := fun hk => absurd rfl hk
    uncompacted := fun hk => by cases hk
    commits := fun hk => by cases hk
    led := fun hk => by cases hk }
  calls := fun call hcall => (h.calls call hcall).mono h.global.elections (.close s _)
  copies := fun call hcall => (h.copies call hcall).mono h.global.elections (.close s _)
  replies := fun r hr => (h.replies r hr).mono h.global.elections (.close s _)
  once := h.once
  uncounted := h.uncounted

/-! ## Nodes that take no part -/

namespace Cluster

variable [StateMachine σ] {a : Action} {b : NodeId}

omit [StateMachine σ] in
theorem mem_ends_of_actor (h : c.actor a = some b) : b ∈ c.ends a := by
  cases a with
  | deliver i | redeliver i =>
      obtain ⟨call, hcall, rfl⟩ := Option.map_eq_some_iff.mp h
      rw [ends, hcall]
      simp
  | reply i =>
      obtain ⟨r, hr, rfl⟩ := Option.map_eq_some_iff.mp h
      rw [ends, hr]
      simp
  | copy | copySilent => cases h
  | _ => exact List.mem_singleton.mpr (Option.some.inj h).symm

/-- A node outside the part that runs stays as it is. -/
theorem nodes_of_not_among {ok : Cluster σ → Action → Prop} (hrun : Run step ok c c')
    (hamong : ∀ x a, ok x a → x.Among P a) (hb : ¬ P b) : c'.nodes b = c.nodes b := by
  refine hrun.invariant (P := fun x => x.nodes b = c.nodes b) rfl fun x a y hx hok hstep => ?_
  rcases step_actor hstep b with hsame | ⟨hactor, -⟩
  · exact hsame.trans hx
  · exact absurd (hamong x a hok b (mem_ends_of_actor hactor)) hb

end Cluster

/-! ## No new leader -/

section Minority

variable [StateMachine σ]

omit [StateMachine σ] in
/-- A voter outside the part that runs has not come to vote for one of its later
candidates. -/
theorem Sim.vote_of_frozen (h : Sim .votes voters c s) (h' : Sim .votes voters c' s')
    (hext : Extends (s.close (· ≠ 0)) s') {v n : NodeId} {t : Nat} (hv : v ≠ 0) (hne : n ≠ v)
    (hfrozen : c'.nodes v = c.nodes v) (hvote : s'.vote v t = some n) : s.vote v t = some n := by
  have hterm : s'.term v = s.term v := by
    rw [← (h'.node v).votes.term, ← (h.node v).votes.term, hfrozen]
  have hpos := h'.global.nonzero v t n hvote
  have hle := h'.global.elections.vote_le v t n hvote
  cases hold : s.vote v t with
  | some x => rw [← hext.vote v t x ((s.close_vote _).mpr (.inl hold)), hvote]
  | none =>
      rcases Nat.lt_or_eq_of_le (hterm ▸ hle) with hlt | rfl
      · -- it has let the term pass
        have hself := hext.vote v t v ((s.close_vote _).mpr
          (.inr ⟨hold, decide_eq_true hv, hpos.2, hlt, rfl⟩))
        rw [hvote] at hself
        exact absurd (Option.some.inj hself) hne
      · -- its vote in its current term is in its hard state
        have hsame : (s'.vote v (s'.term v)).getD 0 = (s.vote v (s.term v)).getD 0 := by
          rw [← (h'.node v).votes.vote, ← (h.node v).votes.vote, hfrozen]
        rw [hterm, hvote, hold] at hsame
        exact absurd hsame hpos.1

/-- **No new leader**: nodes that are cut off without a majority of the voters elect
nobody in a term that is later than the candidate's own at that time. -/
theorem Sim.leader_term_le [DecidablePred P] (h : Sim .votes voters c s) (hvoters : voters.Nodup)
    (hsome : voters ≠ []) (hzero : (c.nodes 0).log.currentTerm = 0)
    (hminority : voters.countP P ≤ voters.length / 2)
    (hrun : Run Cluster.step (fun c a => c.Steady a ∧ c.Among P a) c c') {n : NodeId}
    (hlead : (c'.nodes n).role = .leader) :
    (c'.nodes n).log.currentTerm ≤ (c.nodes n).log.currentTerm := by
  obtain ⟨s', hext, h'⟩ := h.close.run hvoters hsome (hrun.mono fun _ _ hok => .votes hok.1)
  have hfrozen : ∀ v, ¬ P v → c'.nodes v = c.nodes v := fun v hv =>
    Cluster.nodes_of_not_among hrun (fun _ _ hok => hok.2) hv
  have hleader := (h'.node n).votes.leader hlead
  have hwon := h'.global.elections.won _ n hleader
  -- suppose it was elected later: then no voter outside has voted for it
  by_contra hlater
  have hmore := hwon.countP (p := fun v => decide (P v)) fun v hv => by
    rw [decide_eq_true_eq]
    by_contra hout
    have hvote := h'.global.elections.tally_vote n _ v hv
    -- the others stay as they were, so it is not one of them
    have hne : n ≠ v := fun heq => hlater (by rw [heq, hfrozen v hout])
    have hv0 : v ≠ 0 := fun heq => by
      have hle := h'.global.elections.vote_le v _ n hvote
      have hpos := (h'.global.nonzero v _ n hvote).2
      rw [← (h'.node v).votes.term, hfrozen v hout, heq, hzero] at hle
      omega
    -- the vote was there before, and the node does not stand for a term behind its own
    have hstood := h.global.elections.stood_le v _ n
      (h.vote_of_frozen h' hext hv0 hne (hfrozen v hout) hvote)
    rw [← (h.node n).votes.term, ← (h'.node n).votes.term] at hstood
    exact hlater hstood
  omega

end Minority

/-! ## No new commits -/

namespace RaftNode

variable {n : RaftNode σ} {Q : NodeId → Nat → Prop} {B : Nat}

/-- Of each peer the node has a match index for, the index is as `Q` says. -/
def Knows (Q : NodeId → Nat → Prop) (n : RaftNode σ) : Prop :=
  ∀ v i, n.matchIndex.lookup v = some i → v ≠ n.id → Q v i

theorem Knows.insert (h : n.Knows Q) {peer : NodeId} {j : Nat} (hQ : Q peer j)
    (nextIndex : AList fun _ : NodeId => Nat) :
    Knows Q { n with matchIndex := n.matchIndex.insert peer j, nextIndex } := by
  intro v i hi hv
  by_cases hpeer : v = peer
  · subst hpeer
    rw [AList.lookup_insert] at hi
    cases hi
    exact hQ
  · rw [AList.lookup_insert_ne hpeer] at hi
    exact h v i hi hv

variable [StateMachine σ]

theorem Knows.tryAdvanceCommitIndex (h : n.Knows Q)
    (hplain : ∀ e ∈ n.log.entries, e.type ≠ .config) : n.tryAdvanceCommitIndex.Knows Q := by
  have hsame := n.tryAdvanceCommitIndex_tables hplain
  unfold Knows
  rw [hsame.matchIndex, hsame.id]
  exact h

theorem Knows.propose (h : n.Knows Q) (data : Bytes) (type : EntryType)
    (hplain : ∀ e ∈ (n.propose data type).1.log.entries, e.type ≠ .config) :
    (n.propose data type).1.Knows Q := by
  obtain heq | ⟨-, heq⟩ := n.propose_cases data type
  · rw [heq]
    exact h
  · rw [heq, tryAdvanceCommitIndex_log] at hplain
    rw [heq]
    exact Knows.tryAdvanceCommitIndex (n := { n with log := _ }) h hplain

/-- Who comes to lead knows nothing of its peers. -/
theorem knows_becomeLeader (hrole : n.role = .candidate) (hnew : ∀ v ∈ n.config.voters, Q v 0)
    (hplain : ∀ e ∈ n.becomeLeader.1.log.entries, e.type ≠ .config) :
    n.becomeLeader.1.Knows Q := by
  have hlead : n.lead.Knows Q := by
    intro v i hi _
    rcases lookup_foldl_insert hi with ⟨hv, rfl⟩ | hempty
    · exact hnew v hv
    · cases hempty
  rw [becomeLeader_fst hrole] at hplain ⊢
  rw [tryAdvanceCommitIndex_log] at hplain
  exact (hlead.propose [] .noOp hplain).tryAdvanceCommitIndex hplain

/-- A candidacy ends in office only if nobody else has to be asked. -/
theorem knows_becomeCandidate (hnew : ∀ v ∈ n.config.voters, Q v 0)
    (hplain : ∀ e ∈ n.becomeCandidate.1.log.entries, e.type ≠ .config)
    (hrole : n.becomeCandidate.1.role = .leader) : n.becomeCandidate.1.Knows Q := by
  have hstands := n.stands_becomeCandidate
  generalize n.becomeCandidate.1 = n', n.becomeCandidate.2 = sent at hplain hrole hstands ⊢
  cases hstands with
  | outside | ask => cases hrole
  | alone => exact knows_becomeLeader (n := n.candidacy) rfl hnew hplain

theorem knows_handle (h : n.role = .leader → n.Knows Q) (rpc : Rpc)
    (hrole : (n.handle rpc).1.role = .leader) : (n.handle rpc).1.Knows Q := by
  have hhandles := n.handles_handle rpc
  generalize (n.handle rpc).1 = n' at hrole hhandles ⊢
  cases hhandles with
  | refuse => exact h hrole
  | vote req =>
      rw [castVote_role] at hrole
      have hknows := h hrole
      unfold castVote
      split <;> exact hknows
  | voteLater req =>
      rw [castVote_role] at hrole
      cases hrole
  | accept req =>
      rw [applyCommittedEntries_role] at hrole
      cases hrole
  | reject | covered | install => cases hrole

/-- A node that handles a request and leads has taken no commit index from it. -/
theorem commitIndex_handle (rpc : Rpc) (hrole : (n.handle rpc).1.role = .leader) :
    (n.handle rpc).1.commitIndex = n.commitIndex := by
  have hhandles := n.handles_handle rpc
  generalize (n.handle rpc).1 = n' at hrole hhandles ⊢
  cases hhandles with
  | refuse => rfl
  | vote req =>
      unfold castVote
      split <;> rfl
  | voteLater req =>
      rw [castVote_role] at hrole
      cases hrole
  | accept req =>
      rw [applyCommittedEntries_role] at hrole
      cases hrole
  | reject | covered | install => cases hrole

theorem knows_callback (h : n.role = .leader → n.Knows Q) (hnew : ∀ v ∈ n.config.voters, Q v 0)
    {peer : NodeId} (hpeer : ∀ j, Q peer j) (ans : Answer)
    (hplain : ∀ e ∈ (n.callback peer ans).1.log.entries, e.type ≠ .config)
    (hrole : (n.callback peer ans).1.role = .leader) : (n.callback peer ans).1.Knows Q := by
  revert hplain hrole
  cases ans with
  | requestVote req majority resp =>
      simp only [callback, onRequestVoteReply]
      split
      · exact fun _ hrole => h hrole
      · next hguard =>
        -- whoever counts a vote is a candidate, so nothing is known yet when it wins
        rw [not_or, not_not, not_not] at hguard
        have hnot : n.role ≠ .leader := by simp [hguard.1]
        split
        · exact fun _ hrole => by cases hrole
        · split
          · split
            · exact fun hplain _ =>
                knows_becomeLeader (n := { n with votes := _ }) hguard.1 hnew hplain
            · exact fun _ hrole => absurd hrole hnot
          · exact fun _ hrole => absurd hrole hnot
  | appendEntries req resp =>
      simp only [callback, onAppendEntriesReply]
      split
      · exact fun _ hrole => by cases hrole
      · split
        · exact fun _ hrole => h hrole
        · next hguard =>
          rw [not_or, not_not, not_not] at hguard
          split
          · -- the answer tells what its sender has
            intro hplain _
            rw [tryAdvanceCommitIndex_log] at hplain
            exact ((h hguard.1).insert (hpeer _) _).tryAdvanceCommitIndex hplain
          · exact fun _ hrole => h hrole
  | installSnapshot req resp =>
      simp only [callback, onInstallSnapshotReply]
      split
      · exact fun _ hrole => by cases hrole
      · exact fun _ hrole => (h hrole).insert (hpeer _) _

/-- A leader of a minority `P`: of the voters outside it knows no more than up to
`B`. -/
structure CutOff (P : NodeId → Prop) [DecidablePred P] (B : Nat) (n : RaftNode σ) : Prop where
  commit : n.commitIndex ≤ B
  self : n.id ∈ n.config.voters
  side : P n.id
  knows : n.Knows fun v i => v ∈ n.config.voters ∧ (P v ∨ i ≤ B)
  minority : n.config.voters.countP P ≤ n.config.voters.length / 2

variable [DecidablePred P]

/-- It commits no more, either. -/
theorem CutOff.tryAdvanceCommitIndex (h : n.CutOff P B) :
    n.tryAdvanceCommitIndex.commitIndex ≤ B := by
  unfold RaftNode.tryAdvanceCommitIndex
  split
  · exact h.commit
  · split
    · exact h.commit
    · next candidate hcandidate =>
      split
      · -- more than half of the voters reach the candidate index
        obtain ⟨_, _, _, _, _, _, heq, -⟩ :=
          applyCommittedEntries_eq ({ n with commitIndex := candidate } : RaftNode σ)
        rw [heq]
        change candidate ≤ B
        -- if it were above the bound, all of them would be on this side
        by_contra hgt
        obtain ⟨q, hq, hreach⟩ := majority_of_sortedMatches h.self
          (fun v i hi hv => (h.knows v i hi hv).1) hcandidate
        have hmore := hq.countP (p := fun v => decide (P v)) fun v hv => by
          rw [decide_eq_true_eq]
          obtain ⟨rfl, -⟩ | ⟨j, hj, hne, hle⟩ := hreach v hv
          · exact h.side
          · exact (h.knows v j hj hne).2.resolve_right (by omega)
        have hminority := h.minority
        omega
      · exact h.commit

theorem CutOff.propose (h : n.CutOff P B) (data : Bytes) (type : EntryType) :
    (n.propose data type).1.commitIndex ≤ B := by
  obtain heq | ⟨-, heq⟩ := n.propose_cases data type
  · rw [heq]
    exact h.commit
  · rw [heq]
    exact CutOff.tryAdvanceCommitIndex (n := { n with log := _ }) ⟨h.1, h.2, h.3, h.4, h.5⟩

/-- A reply from its own side tells it nothing of the others. -/
theorem CutOff.callback (h : n.CutOff P B) (hrole : n.role = .leader) {peer : NodeId}
    (hvoter : peer ∈ n.config.voters) (hpeer : P peer) (ans : Answer) :
    (n.callback peer ans).1.commitIndex ≤ B := by
  have hfollow : ∀ t, (n.becomeFollower t 0).commitIndex ≤ B := fun t => h.commit
  cases ans with
  | requestVote req majority resp =>
      -- a leader ignores votes
      have hnot : n.role ≠ .candidate := by simp [hrole]
      simp only [RaftNode.callback, onRequestVoteReply, if_pos (Or.inl hnot)]
      exact h.commit
  | appendEntries req resp =>
      simp only [RaftNode.callback, onAppendEntriesReply]
      split
      · exact hfollow _
      · split
        · exact h.commit
        · split
          · -- the peer is on this side, so what it has does not matter
            exact CutOff.tryAdvanceCommitIndex
              ⟨h.commit, h.self, h.side, h.knows.insert ⟨hvoter, .inl hpeer⟩ _, h.minority⟩
          · exact h.commit
  | installSnapshot req resp =>
      simp only [RaftNode.callback, onInstallSnapshotReply]
      split
      · exact hfollow _
      · exact h.commit

end RaftNode

section Commits

variable [StateMachine σ] {a : Action} {n : NodeId} {Q : NodeId → Nat → Prop}

omit [StateMachine σ] in
/-- Replies come from voters. -/
theorem Sim.target_mem (h : Sim .votes voters c s) {r : Reply} (hr : r ∈ c.replies) :
    r.target ∈ voters := by
  have hinv := h.replies r hr
  unfold ReplyInv at hinv
  split at hinv
  · exact hinv.1.target_mem
  · exact hinv.1.target_mem
  · exact hinv.sent.target_mem

/-- What the leaders know of their peers. -/
theorem Sim.knows_step (h : Sim .votes voters c s) (h' : Sim .votes voters c' s')
    (hstep : c.step a = some c') (hnew : ∀ v ∈ voters, Q v 0)
    (hreply : ∀ i r, a = .reply i → c.replies[i]? = some r → ∀ j, Q r.target j)
    (hk : (c.nodes n).role = .leader → (c.nodes n).Knows Q)
    (hrole : (c'.nodes n).role = .leader) : (c'.nodes n).Knows Q := by
  have hplain := (h'.node n).votes.plain
  have hconfig := (h.node n).votes.config
  obtain heq | ⟨sent, hown⟩ | ⟨call, -, -, heq⟩ | ⟨i, r, ha, hr, -, heq⟩ :=
    Cluster.step_node hstep n
  · rw [heq] at hrole ⊢
    exact hk hrole
  · -- what the node does by itself: only a candidate of one voter comes to lead
    obtain ⟨-, heq, -⟩ | ⟨-, -, heq, -⟩ | ⟨heq, -⟩ | ⟨data, type, heq, -⟩ | ⟨heq, -⟩ | ⟨heq, -⟩ :=
      Cluster.ownStep_cases hown
    all_goals rw [heq] at hrole hplain ⊢
    · -- a restarted node does not lead
      cases hrole
    · exact RaftNode.knows_becomeCandidate (by rwa [hconfig]) hplain hrole
    · exact hk hrole
    · rw [RaftNode.propose_role] at hrole
      -- proposing only adds the node's own entry
      exact (hk hrole).propose data type hplain
    · rw [RaftNode.forceSnapshot_role] at hrole
      have hknows := hk hrole
      rcases (c.nodes n).forceSnapshot_cases with heq | heq <;> rw [heq] <;> exact hknows
    · rw [RaftNode.maybeSnapshot_role] at hrole
      have hknows := hk hrole
      rcases (c.nodes n).maybeSnapshot_cases with heq | heq
      · rwa [heq]
      · rw [heq]
        rcases (c.nodes n).forceSnapshot_cases with heq | heq <;> rw [heq] <;> exact hknows
  · -- handlers never make a leader
    rw [heq] at hrole ⊢
    exact RaftNode.knows_handle hk call.rpc hrole
  · rw [heq] at hrole hplain ⊢
    exact RaftNode.knows_callback hk (by rwa [hconfig]) (hreply i r ha hr) r.answer hplain hrole

omit [StateMachine σ] in
/-- A leader leads its term or is done with it. -/
theorem Sim.inOffice_or_past (h : Sim .votes voters c s) (h' : Sim .votes voters c' s')
    (hext : Extends s s') {t : Nat} (hoffice : (c.nodes n).InOffice t) :
    (c'.nodes n).InOffice t ∨ (c'.nodes n).Past t := by
  have hterm : s.term n = t := (h.node n).votes.term.symm.trans hoffice.2
  have hterm' := (h'.node n).votes.term
  have hle := hext.term n
  rcases Nat.lt_or_eq_of_le hle with hlt | heq
  · exact .inr (.inl (by omega))
  · have hsame : (c'.nodes n).log.currentTerm = t := by omega
    cases hrole : (c'.nodes n).role with
    | leader => exact .inl ⟨hrole, hsame⟩
    | follower => exact .inr (.inr ⟨hsame.symm, hrole⟩)
    | candidate =>
        have hleader := hext.leader _ n ((h.node n).votes.leader hoffice.1)
        rw [heq] at hleader
        exact absurd hleader ((h'.node n).votes.candidate hrole).2.1

/-- A leader that is cut off commits nothing while it leads. -/
theorem commit_step [DecidablePred P] {B : Nat} (h : Sim .votes voters c s)
    (hstep : c.step a = some c') (hamong : c.Among P a) (hrole : (c.nodes n).role = .leader)
    (hcut : (c.nodes n).CutOff P B) (hrole' : (c'.nodes n).role = .leader) :
    (c'.nodes n).commitIndex ≤ B := by
  obtain heq | ⟨sent, hown⟩ | ⟨call, -, -, heq⟩ | ⟨i, r, rfl, hr, rfl, heq⟩ :=
    Cluster.step_node hstep n
  · rw [heq]
    exact hcut.commit
  · obtain ⟨-, heq, -⟩ | ⟨-, hnot, -, -⟩ | ⟨heq, -⟩ | ⟨data, type, heq, -⟩ | ⟨heq, -⟩ | ⟨heq, -⟩ :=
      Cluster.ownStep_cases hown
    · -- not as a leader, again
      rw [heq] at hrole'
      cases hrole'
    · exact absurd hrole hnot
    all_goals rw [heq]
    · exact hcut.commit
    · exact hcut.propose data type
    · rcases (c.nodes n).forceSnapshot_cases with heq | heq <;> rw [heq] <;> exact hcut.commit
    · rcases (c.nodes n).maybeSnapshot_cases with heq | heq
      · rw [heq]
        exact hcut.commit
      · rw [heq]
        rcases (c.nodes n).forceSnapshot_cases with heq | heq <;> rw [heq] <;> exact hcut.commit
  · rw [heq] at hrole' ⊢
    rw [RaftNode.commitIndex_handle call.rpc hrole']
    exact hcut.commit
  · -- an answer comes from this side
    have hside : P r.target := hamong r.target (by rw [Cluster.ends, hr]; simp)
    have hvoter := h.target_mem (List.mem_of_getElem? hr)
    rw [← (h.node r.sender).votes.config] at hvoter
    rw [heq]
    exact hcut.callback hrole hvoter hside r.answer

/-- **No new commits**: a leader that is cut off without a majority of the voters
commits nothing beyond what it had committed and what it knew the voters outside to
have, for as long as it leads. -/
theorem Sim.commitIndex_le [DecidablePred P] {B : Nat} (h : Sim .votes voters c s)
    (hvoters : voters.Nodup) (hsome : voters ≠ [])
    (hminority : voters.countP P ≤ voters.length / 2)
    (hrun : Run Cluster.step (fun c a => c.Steady a ∧ c.Among P a) c c')
    (hP : P n) (hrole : (c.nodes n).role = .leader) (hcommit : (c.nodes n).commitIndex ≤ B)
    (hknows : (c.nodes n).Knows fun v i => v ∈ voters ∧ (P v ∨ i ≤ B))
    (hrole' : (c'.nodes n).role = .leader)
    (hterm : (c'.nodes n).log.currentTerm = (c.nodes n).log.currentTerm) :
    (c'.nodes n).commitIndex ≤ B := by
  set t := (c.nodes n).log.currentTerm with ht
  have hinv : (∃ s', Sim .votes voters c' s') ∧
      ((c'.nodes n).role = .leader →
        (c'.nodes n).Knows fun v i => v ∈ voters ∧ (P v ∨ i ≤ B)) ∧
      ((c'.nodes n).InOffice t ∧ (c'.nodes n).commitIndex ≤ B ∨ (c'.nodes n).Past t) := by
    refine hrun.invariant (P := fun x => (∃ s', Sim .votes voters x s') ∧
      ((x.nodes n).role = .leader →
        (x.nodes n).Knows fun v i => v ∈ voters ∧ (P v ∨ i ≤ B)) ∧
      ((x.nodes n).InOffice t ∧ (x.nodes n).commitIndex ≤ B ∨ (x.nodes n).Past t))
      ⟨⟨s, h⟩, fun _ => hknows, .inl ⟨⟨hrole, rfl⟩, hcommit⟩⟩ ?_
    rintro x a y ⟨⟨s₁, h₁⟩, hknows₁, hoffice₁⟩ hok hstep
    obtain ⟨s₂, hext, h₂⟩ := h₁.step hvoters hsome (.votes hok.1) hstep
    refine ⟨⟨s₂, h₂⟩, fun hrole₂ => h₁.knows_step h₂ hstep (fun v hv => ⟨hv, .inr (Nat.zero_le _)⟩)
      (fun i r ha hr j => ?_) hknows₁ hrole₂, ?_⟩
    · -- answers come from voters on this side
      refine ⟨h₁.target_mem (List.mem_of_getElem? hr), .inl (hok.2 r.target ?_)⟩
      rw [ha, Cluster.ends, hr]
      simp
    rcases hoffice₁ with ⟨hoffice, hcommit₁⟩ | hpast
    · -- still in office: the bound holds for one more step
      refine (h₁.inOffice_or_past h₂ hext hoffice).imp_left fun hoffice₂ => ⟨hoffice₂, ?_⟩
      have hvotes := (h₁.node n).votes
      have hself := h₁.global.elections.member _ n (hvotes.leader hoffice.1)
      refine commit_step h₁ hstep hok.2 hoffice.1 ⟨hcommit₁, ?_, ?_, ?_, ?_⟩ hoffice₂.1
      · rwa [hvotes.config, hvotes.id]
      · rwa [hvotes.id]
      · rw [hvotes.config]
        exact hknows₁ hoffice.1
      · rwa [hvotes.config]
    · -- a term that is over does not come back
      have hle := hext.term n
      rw [← (h₁.node n).votes.term, ← (h₂.node n).votes.term] at hle
      exact .inr (Cluster.past_step hle hstep hpast)
  rcases hinv.2.2 with hoffice | hpast
  · exact hoffice.2
  · exact absurd ⟨hrole', hterm⟩ hpast.not_inOffice

end Commits

/-! ## Partitions of the test network -/

namespace FaultyNetwork

/-- The nodes on one side of a partition. -/
def OnSide (groupA : List NodeId) (b : Bool) (n : NodeId) : Prop := decide (n ∈ groupA) = b

instance (groupA : List NodeId) (b : Bool) : DecidablePred (OnSide groupA b) :=
  fun _ => inferInstanceAs (Decidable (_ = _))

/-- The steps that are taken while a partition stands. -/
def SteadyDivided (groupA : List NodeId) (net : FaultyNetwork σ) (a : Action) : Prop :=
  net.Steady a ∧ net.partitioned = true ∧ net.groupA = groupA

instance (groupA : List NodeId) (net : FaultyNetwork σ) (a : Action) :
    Decidable (net.SteadyDivided groupA a) :=
  inferInstanceAs (Decidable (_ ∧ _))

variable {net net' : FaultyNetwork σ}

theorem separates_of_partitioned {groupA : List NodeId} (hpartitioned : net.partitioned = true)
    (hgroup : net.groupA = groupA) (b : Bool) : net.Separates (OnSide groupA b) := by
  intro m n hreach
  unfold reachable at hreach
  rw [hpartitioned, hgroup] at hreach
  split at hreach
  · cases hreach
  · rw [if_neg (by simp), beq_iff_eq] at hreach
    rw [OnSide, OnSide, hreach]

variable [StateMachine σ] {S : Setup} {workers : Nat}

/-- A cluster beside the network, with the protocol beside it. -/
structure Beside (S : Setup) (net : FaultyNetwork σ) (c : Cluster σ) (s : Ghost) : Prop where
  follows : Follows (fun _ => True) net c
  sim : Sim .votes S.config.voters c s
  nobody : (c.nodes 0).log.currentTerm = 0
  knows : ∀ n, (c.nodes n).role = .leader → (c.nodes n).Knows fun v _ => v ∈ S.config.voters

theorem exists_beside (r : Run step Steady (.start S workers) net) :
    ∃ c s, Beside S net c s := by
  have hsettled : (.start S workers : FaultyNetwork σ).Settled fun _ => True :=
    fun _ h => by cases h
  -- the whole network is a run of the cluster
  obtain ⟨c, hrun, hf⟩ : ∃ c, Run Cluster.step Cluster.Steady (S.start : Cluster σ) c ∧
      Follows (fun _ => True) net c :=
    (Follows.cluster (fun _ => True) (.start S workers)).run (.start S workers) hsettled
      (fun _ _ _ _ _ _ => Iff.rfl)
      (fun _ _ _ _ hok hpermits => ⟨hpermits.fixed hok.1, hpermits.once hok.2⟩) r
  have hzero : (0 : NodeId) ∉ (S.start : Cluster σ).members := fun h => S.members_ne_zero 0 h rfl
  -- along which leaders only know of voters
  have hinv : (∃ s, Sim .votes S.config.voters c s) ∧
      ∀ n, (c.nodes n).role = .leader → (c.nodes n).Knows fun v _ => v ∈ S.config.voters := by
    refine hrun.invariant (P := fun x => (∃ s, Sim .votes S.config.voters x s) ∧
      ∀ n, (x.nodes n).role = .leader → (x.nodes n).Knows fun v _ => v ∈ S.config.voters)
      ⟨⟨_, .start S⟩, fun n hrole => by cases hrole⟩ ?_
    rintro x a y ⟨⟨s₁, h₁⟩, hknows⟩ hok hstep
    obtain ⟨s₂, -, h₂⟩ := h₁.step S.voters_nodup S.voters_ne_nil (.votes hok) hstep
    exact ⟨⟨s₂, h₂⟩, fun n hrole => h₁.knows_step h₂ hstep (fun v hv => hv)
      (fun i r _ hr _ => h₁.target_mem (List.mem_of_getElem? hr)) (hknows n) hrole⟩
  obtain ⟨⟨s, h⟩, hknows⟩ := hinv
  refine ⟨c, s, hf, h, ?_, hknows⟩
  rw [Cluster.nodes_of_not_mem hrun hzero]
  rfl

omit [StateMachine σ] in
theorem Follows.mono {P Q : NodeId → Prop} (h : ∀ n, P n → Q n) {c : Cluster σ}
    (hf : Follows Q net c) : Follows P net c :=
  ⟨hf.members, fun n hn => hf.nodes n (h n hn),
    fun x hs ht => hf.calls x (h _ hs) (h _ ht), fun r hs ht => hf.replies r (h _ hs) (h _ ht)⟩

/-- **Isolation**: what one side of a partition does is a run of the cluster in which no
one else takes part. -/
theorem isolated_run {groupA : List NodeId} {b : Bool}
    (r : Run step Steady (.start S workers) net) (hsettled : net.Settled (OnSide groupA b))
    (r' : Run step (SteadyDivided groupA) net net') :
    ∃ c s c', Beside S net c s ∧
      Run Cluster.step (fun c a => c.Steady a ∧ c.Among (OnSide groupA b) a) c c' ∧
      ∀ n, OnSide groupA b n → c'.nodes n = net'.nodes n := by
  obtain ⟨c, s, hbeside⟩ := exists_beside r
  have hf : Follows (OnSide groupA b) net c := hbeside.follows.mono fun _ _ => trivial
  obtain ⟨c', hc', hf'⟩ : ∃ c',
      Run Cluster.step (fun c a => c.Steady a ∧ c.Among (OnSide groupA b) a) c c' ∧
        Follows (OnSide groupA b) net' c' :=
    hf.run ((Sound.start S workers).run r) hsettled
      (fun _ _ hok => separates_of_partitioned hok.2.1 hok.2.2 b)
      (fun _ _ _ _ hok hpermits =>
        ⟨⟨hpermits.fixed hok.1.1, hpermits.once hok.1.2⟩, hpermits.among⟩) r'
  exact ⟨c, s, c', hbeside, hc', hf'.nodes⟩

end FaultyNetwork

open FaultyNetwork

variable [StateMachine σ] {S : Setup} {workers : Nat} {net net' : FaultyNetwork σ}
  {groupA : List NodeId} {b : Bool} {n : NodeId}

/-- **A minority elects nobody**: while a partition of the test network stands and no
call that it let through before is still handled across it, a node on a side without a
majority of the voters does not lead in a term later than the one it had at the beginning,
if neither before nor during the partition a configuration is proposed or a request for a
vote copied. -/
theorem minority_elects_nobody
    (r : Run FaultyNetwork.step FaultyNetwork.Steady (.start S workers) net)
    (hsettled : net.Settled (OnSide groupA b))
    (hminority : S.config.voters.countP (OnSide groupA b) ≤ S.config.voters.length / 2)
    (r' : Run FaultyNetwork.step (SteadyDivided groupA) net net') (hn : OnSide groupA b n)
    (hlater : (net.nodes n).log.currentTerm < (net'.nodes n).log.currentTerm) :
    (net'.nodes n).role ≠ .leader := by
  obtain ⟨c, s, c', hbeside, hrun, hnodes⟩ := isolated_run r hsettled r'
  rw [← hnodes n hn] at hlater ⊢
  rw [← hbeside.follows.nodes n trivial] at hlater
  intro hlead
  exact absurd hlater (Nat.not_lt_of_le (hbeside.sim.leader_term_le S.voters_nodup S.voters_ne_nil
    hbeside.nobody hminority hrun hlead))

/-- Nodes 1 and 2 of five are cut off from the others. -/
def twoCutOff : FaultyNetwork KvStore :=
  replay FaultyNetwork.step (.start fiveNodes 8)
    [.registerNode 1, .registerNode 2, .registerNode 3, .registerNode 4, .registerNode 5,
      .partition [1, 2]]

/-- Node 1 stands for election and has the vote of node 2. -/
def stoodCutOff : FaultyNetwork KvStore :=
  replay FaultyNetwork.step twoCutOff
    [.node (.timeout 1), .run 0 calm, .run 0 calm, .run 0 calm, .run 0 calm, .run 0 calm, .schedule,
      .pop, .run 0 calm, .run 0 calm, .run 0 calm, .run 0 calm]

theorem minority_elects_nobody_of_stoodCutOff :
    (stoodCutOff.nodes 1).votes 1 = 2 ∧ (stoodCutOff.nodes 1).log.currentTerm = 1 ∧
      (stoodCutOff.nodes 1).role ≠ .leader := by
  have hrun : Run FaultyNetwork.step FaultyNetwork.Steady
      (.start fiveNodes 8 : FaultyNetwork KvStore) twoCutOff := run_replay (by decide +kernel)
  have hrun' : Run FaultyNetwork.step (SteadyDivided [1, 2]) twoCutOff stoodCutOff :=
    run_replay (by decide +kernel)
  have hsettled : twoCutOff.Settled (OnSide [1, 2] true) := by
    have hnone : twoCutOff.threads = [] := by decide +kernel
    intro th hth
    rw [hnone] at hth
    cases hth
  exact ⟨by decide +kernel, by decide +kernel,
    minority_elects_nobody hrun hsettled (by decide) hrun' (by decide) (by decide +kernel)⟩

/-- **A leader that is cut off commits nothing**: as long as it leads its term, its
commit index stays within any bound on what it had committed and on what it knew each of
the voters of the other side to have, if neither before nor during the partition a
configuration is proposed or a request for a vote copied. -/
theorem cut_off_leader_commits_nothing
    (r : Run FaultyNetwork.step FaultyNetwork.Steady (.start S workers) net)
    (hsettled : net.Settled (OnSide groupA b))
    (hminority : S.config.voters.countP (OnSide groupA b) ≤ S.config.voters.length / 2)
    (r' : Run FaultyNetwork.step (SteadyDivided groupA) net net') (hn : OnSide groupA b n)
    (hlead : (net.nodes n).role = .leader) {B : Nat} (hcommit : (net.nodes n).commitIndex ≤ B)
    (hmatch : ∀ v i, (net.nodes n).matchIndex.lookup v = some i → ¬ OnSide groupA b v → i ≤ B)
    (hlead' : (net'.nodes n).role = .leader)
    (hterm : (net'.nodes n).log.currentTerm = (net.nodes n).log.currentTerm) :
    (net'.nodes n).commitIndex ≤ B := by
  obtain ⟨c, s, c', hbeside, hrun, hnodes⟩ := isolated_run r hsettled r'
  have hnode := hbeside.follows.nodes n trivial
  rw [← hnodes n hn] at hlead' hterm ⊢
  rw [← hnode] at hlead hcommit hmatch hterm
  refine hbeside.sim.commitIndex_le S.voters_nodup S.voters_ne_nil hminority hrun hn hlead hcommit
    (fun v i hi hne => ⟨hbeside.knows n hlead v i hi hne, ?_⟩) hlead' hterm
  by_cases hv : OnSide groupA b v
  · exact .inl hv
  · exact .inr (hmatch v i hi hv)

/-- Node 1 leads and has committed its first entry; then it is cut off. -/
def leaderCutOff : FaultyNetwork KvStore :=
  replay FaultyNetwork.step electedBesidePartition [.run 0 calm, .partition [1]]

/-- It accepts a proposal and calls in vain. -/
def proposedAlone : FaultyNetwork KvStore :=
  replay FaultyNetwork.step leaderCutOff
    [.node (.propose 1 putCommand), .run 0 calm, .node (.heartbeat 1), .run 0 calm, .run 0 calm,
      .run 0 calm, .pop, .run 0 calm]

theorem leaderCutOff_run : Run FaultyNetwork.step FaultyNetwork.Steady
    (.start threeNodes 8 : FaultyNetwork KvStore) leaderCutOff :=
  .trans (run_replay (by decide +kernel) : Run _ _ _ electedBesidePartition)
    (run_replay (by decide +kernel))

theorem proposedAlone_run : Run FaultyNetwork.step (SteadyDivided [1]) leaderCutOff proposedAlone :=
  run_replay (by decide +kernel)

theorem leaderCutOff_settled : leaderCutOff.Settled (OnSide [1] true) := by
  have hnone : leaderCutOff.threads = [] := by decide +kernel
  intro th hth
  rw [hnone] at hth
  cases hth

theorem cut_off_leader_commits_nothing_of_proposedAlone :
    (proposedAlone.nodes 1).log.lastIndex = 2 ∧ (proposedAlone.nodes 1).commitIndex ≤ 1 := by
  have hmatch : ∀ p ∈ (leaderCutOff.nodes 1).matchIndex.entries, p.2 ≤ 1 := by decide +kernel
  refine ⟨by decide +kernel, cut_off_leader_commits_nothing leaderCutOff_run leaderCutOff_settled
    (by decide) proposedAlone_run (by decide) (by decide +kernel) (by decide +kernel)
    (fun v i hi _ => ?_) (by decide +kernel) (by decide +kernel)⟩
  exact hmatch ⟨v, i⟩ (List.of_mem_dlookup hi)

end KvRaft
