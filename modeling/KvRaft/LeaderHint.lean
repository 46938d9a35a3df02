import KvRaft.Effect
import KvRaft.Safety

/-!
# KvRaft.LeaderHint

The leader a node names, to its clients and in a refused proposal, came to lead
in the node's own term at some earlier point of the run (`leader_hint_sound`).

A node takes the name from a request of its term, takes its own when it comes to
lead, or forgets it (`RaftNode.Hint`, `Cluster.step_hint`); and what is on its
way was sent by a node that leads in the term of the request
(`Cluster.Hinted`).

Membership changes, snapshots, restarts and copied messages are all allowed.
-/

namespace KvRaft

variable {σ : Type}

/-- The sender and the term of a leader's request. -/
def Rpc.leader? : Rpc → Option (NodeId × Nat)
  | requestVote .. => none
  | appendEntries req => some (req.leaderId, req.term)
  | installSnapshot req => some (req.leaderId, req.term)

namespace RaftNode

/-- The role, the leader and the term are the same. -/
structure SameHint (n n' : RaftNode σ) : Prop where
  role : n'.role = n.role
  leaderId : n'.leaderId = n.leaderId
  term : n'.log.currentTerm = n.log.currentTerm

theorem SameHint.refl (n : RaftNode σ) : SameHint n n := ⟨rfl, rfl, rfl⟩

theorem SameHint.trans {n₁ n₂ n₃ : RaftNode σ} (h : SameHint n₁ n₂) (h' : SameHint n₂ n₃) :
    SameHint n₁ n₃ :=
  ⟨h'.role.trans h.role, h'.leaderId.trans h.leaderId, h'.term.trans h.term⟩

/-- What a node may do to its role and the leader it knows, other than on a
leader's request. -/
inductive Hint (n n' : RaftNode σ) : Prop
  | keep (h : SameHint n n')
  | forget (hrole : n'.role ≠ .leader) (hleader : n'.leaderId = 0)
  | lead (hbefore : n.role ≠ .leader) (hrole : n'.role = .leader) (hleader : n'.leaderId = n.id)

theorem castVote_sameHint (n : RaftNode σ) (req : RequestVoteReq) :
    SameHint n (n.castVote req).1 := by
  unfold castVote
  split <;> exact ⟨rfl, rfl, rfl⟩

variable [StateMachine σ] (n : RaftNode σ)

theorem applyCommittedEntries_sameHint : SameHint n n.applyCommittedEntries := by
  obtain ⟨_, _, _, _, _, _, heq, -⟩ := n.applyCommittedEntries_eq
  rw [heq]
  exact ⟨rfl, rfl, rfl⟩

theorem tryAdvanceCommitIndex_sameHint : SameHint n n.tryAdvanceCommitIndex := by
  obtain h | ⟨i, -, -, -, h⟩ := n.tryAdvanceCommitIndex_cases
  · rw [h]
    exact .refl n
  · have hset : SameHint n { n with commitIndex := i } := ⟨rfl, rfl, rfl⟩
    rw [h]
    exact hset.trans (applyCommittedEntries_sameHint _)

theorem propose_sameHint (commandBytes : Bytes) (type : EntryType) :
    SameHint n (n.propose commandBytes type).1 := by
  obtain h | ⟨-, h⟩ := n.propose_cases commandBytes type
  · rw [h]
    exact .refl n
  · have happend : SameHint n
        { n with log := n.log.appendAndSync [n.newEntry commandBytes type] } :=
      ⟨rfl, rfl, PersistentLog.appendAndSync_currentTerm _ _⟩
    rw [h]
    exact happend.trans (tryAdvanceCommitIndex_sameHint _)

theorem forceSnapshot_sameHint : SameHint n n.forceSnapshot := by
  rcases n.forceSnapshot_cases with h | h
  · rw [h]
    exact .refl n
  · rw [h]
    exact ⟨rfl, rfl, PersistentLog.compactUpTo_currentTerm _ _ _ _⟩

theorem maybeSnapshot_sameHint : SameHint n n.maybeSnapshot := by
  rcases n.maybeSnapshot_cases with h | h
  · rw [h]
    exact .refl n
  · rw [h]
    exact n.forceSnapshot_sameHint

/-- A candidate that comes to lead names itself. -/
theorem becomeLeader_hint {m : RaftNode σ} (hid : m.id = n.id) (hcandidate : m.role = .candidate)
    (hbefore : n.role ≠ .leader) : Hint n m.becomeLeader.1 := by
  have hlead : SameHint m.lead m.becomeLeader.1 := by
    rw [becomeLeader_fst hcandidate]
    exact (propose_sameHint _ [] .noOp).trans (tryAdvanceCommitIndex_sameHint _)
  exact .lead hbefore hlead.role (hlead.leaderId.trans hid)

theorem becomeCandidate_hint (h : n.role ≠ .leader) : Hint n n.becomeCandidate.1 := by
  have hstands := n.stands_becomeCandidate
  generalize n.becomeCandidate.1 = n', n.becomeCandidate.2 = sent at hstands
  cases hstands with
  | alone => exact n.becomeLeader_hint rfl rfl h
  | outside | ask => exact .forget nofun rfl

theorem callback_hint (peer : NodeId) (ans : Answer) : Hint n (n.callback peer ans).1 := by
  have hcalls := n.callsBack_callback peer ans
  generalize (n.callback peer ans).1 = n', (n.callback peer ans).2 = sent at hcalls
  cases hcalls with
  | ignore => exact .keep (.refl n)
  | follow _ t => exact .forget nofun rfl
  | win req majority resp hcandidate =>
      exact n.becomeLeader_hint rfl hcandidate (by rw [hcandidate]; nofun)
  | advance _ _ nextIndex matchIndex =>
      have htrack : SameHint n { n with nextIndex, matchIndex } := ⟨rfl, rfl, rfl⟩
      exact .keep (htrack.trans (tryAdvanceCommitIndex_sameHint _))
  | count | track => exact .keep ⟨rfl, rfl, rfl⟩

theorem handle_vote_hint (req : RequestVoteReq) (majority : Nat) :
    Hint n (n.handle (.requestVote req majority)).1 := by
  have hhandles := n.handles_handle (.requestVote req majority)
  generalize (n.handle (.requestVote req majority)).1 = n' at hhandles
  cases hhandles with
  | refuse => exact .keep (.refl n)
  | vote => exact .keep (castVote_sameHint n req)
  | voteLater =>
      have hcast := castVote_sameHint (n.becomeFollower req.term 0) req
      refine .forget ?_ hcast.leaderId
      rw [hcast.role]
      nofun

/-! ## Requests of a leader -/

/-- A leader's request is refused, or the node follows its sender in its term. -/
theorem handle_leader {rpc : Rpc} {l : NodeId} {t : Nat} (h : rpc.leader? = some (l, t)) :
    (n.handle rpc).1 = n ∨ SameHint (n.becomeFollower t l) (n.handle rpc).1 ∧
      (n.handle rpc).1.log.currentTerm = t := by
  -- whatever it does next, the node follows the sender in the sender's term
  have hfollows : ∀ {t l}, n.log.currentTerm ≤ t → ∀ {n'}, SameHint (n.becomeFollower t l) n' →
      SameHint (n.becomeFollower t l) n' ∧ n'.log.currentTerm = t :=
    fun hterm _ hsame => ⟨hsame, hsame.term.trans (n.becomeFollower_currentTerm hterm _)⟩
  have hhandles := n.handles_handle rpc
  generalize (n.handle rpc).1 = n' at hhandles
  cases hhandles with
  | vote | voteLater => cases h
  | refuse => exact .inl rfl
  | reject req hterm | covered req hterm =>
      cases h
      exact .inr (hfollows hterm (.refl _))
  | accept req hacc =>
      cases h
      have haccept : SameHint (n.becomeFollower req.term req.leaderId)
          ((n.becomeFollower req.term req.leaderId).acceptEntries req) :=
        ⟨rfl, rfl, PersistentLog.appendAndSync_currentTerm _ _⟩
      exact .inr (hfollows hacc.1 (haccept.trans (applyCommittedEntries_sameHint _)))
  | install req hterm =>
      cases h
      have hinstall : SameHint (n.becomeFollower req.term req.leaderId)
          ((n.becomeFollower req.term req.leaderId).acceptSnapshot req) :=
        ⟨rfl, rfl, PersistentLog.compactUpTo_currentTerm _ _ _ _⟩
      exact .inr (hfollows hterm hinstall)

/-- What a leader sends bears its name and its term. -/
theorem leader?_of_broadcast {n : RaftNode σ} {call : Call} (h : call ∈ n.broadcastAppendEntries) :
    n.role = .leader ∧ call.rpc.leader? = some (n.id, n.log.currentTerm) := by
  obtain ⟨hrole, peer, rfl⟩ := of_mem_broadcast h
  refine ⟨hrole, ?_⟩
  simp only [replicateTo]
  split <;> rfl

end RaftNode

/-! ## Along a run -/

namespace Cluster

variable {c c' : Cluster σ} {a : Action}

/-- Node `l` came to lead in term `T`. -/
def CameToLead (trace : List (Taken (Cluster σ) Action)) (l : NodeId) (T : Nat) : Prop :=
  ∃ x ∈ trace, (x.before.nodes l).role ≠ .leader ∧ (x.after.nodes l).role = .leader ∧
    (x.after.nodes l).log.currentTerm = T

theorem CameToLead.mono {trace : List (Taken (Cluster σ) Action)} {l : NodeId} {T : Nat}
    (h : CameToLead trace l T) (x : Taken (Cluster σ) Action) :
    CameToLead (trace ++ [x]) l T := by
  obtain ⟨y, hy, hled⟩ := h
  exact ⟨y, List.mem_append_left _ hy, hled⟩

variable [StateMachine σ]

/-- What a step does to the leader a node knows. -/
theorem step_hint (h : c.step a = some c') (b : NodeId) :
    (c.nodes b).Hint (c'.nodes b) ∨
      ∃ call l, c.delivered a = some call ∧
        call.rpc.leader? = some (l, (c'.nodes b).log.currentTerm) ∧
        (c'.nodes b).role = .follower ∧ (c'.nodes b).leaderId = l := by
  obtain heq | ⟨sent, hown⟩ | ⟨call, hcall, -, heq⟩ | ⟨i, r, -, -, -, heq⟩ := step_node h b
  · rw [heq]
    exact .inl (.keep (.refl _))
  · -- restart, candidacy, heartbeat, proposal and the two snapshots
    obtain ⟨-, heq, -⟩ | ⟨-, hrole, heq, -⟩ | ⟨heq, -⟩ | ⟨data, type, heq, -⟩ | ⟨heq, -⟩ |
      ⟨heq, -⟩ := ownStep_cases hown
    all_goals rw [heq]
    · exact .inl (.forget nofun rfl)
    · exact .inl (RaftNode.becomeCandidate_hint _ hrole)
    · exact .inl (.keep (.refl _))
    · exact .inl (.keep (RaftNode.propose_sameHint _ data type))
    · exact .inl (.keep (RaftNode.forceSnapshot_sameHint _))
    · exact .inl (.keep (RaftNode.maybeSnapshot_sameHint _))
  · rw [heq]
    -- a request for votes names no leader; the others name their sender
    cases hleader : call.rpc.leader? with
    | none =>
        cases hrpc : call.rpc with
        | requestVote req majority => exact .inl (RaftNode.handle_vote_hint _ req majority)
        | appendEntries | installSnapshot =>
            rw [hrpc] at hleader
            cases hleader
    | some p =>
        obtain hsame | ⟨hfollows, hterm⟩ := (c.nodes b).handle_leader hleader
        · rw [hsame]
          exact .inl (.keep (.refl _))
        · refine .inr ⟨call, p.1, hcall, ?_, hfollows.role, hfollows.leaderId⟩
          rw [hterm, hleader]
  · rw [heq]
    exact .inl (RaftNode.callback_hint _ _ _)

/-- Whoever is named as leader, by a node or by a request, came to lead in that
term. -/
structure Hinted (trace : List (Taken (Cluster σ) Action)) (c : Cluster σ) : Prop where
  id : ∀ n, (c.nodes n).id = n
  leads : ∀ n, (c.nodes n).role = .leader → (c.nodes n).leaderId = n ∧
    CameToLead trace n (c.nodes n).log.currentTerm
  knows : ∀ n, (c.nodes n).leaderId ≠ 0 →
    CameToLead trace (c.nodes n).leaderId (c.nodes n).log.currentTerm
  sent : ∀ call l T, c.OnItsWay call → call.rpc.leader? = some (l, T) → CameToLead trace l T

namespace Hinted

theorem init (members : List NodeId) (config : ClusterConfig) (threshold : Nat) :
    Hinted [] (Cluster.init members config threshold : Cluster σ) where
  id _ := rfl
  leads _ := nofun
  knows _ h := absurd rfl h
  sent _ _ _ h := nomatch h

variable {trace : List (Taken (Cluster σ) Action)}

theorem step_node (h : Hinted trace c) (hstep : c.step a = some c') (n : NodeId) :
    ((c'.nodes n).role = .leader → (c'.nodes n).leaderId = n ∧
      CameToLead (trace ++ [⟨c, a, c'⟩]) n (c'.nodes n).log.currentTerm) ∧
    ((c'.nodes n).leaderId ≠ 0 →
      CameToLead (trace ++ [⟨c, a, c'⟩]) (c'.nodes n).leaderId (c'.nodes n).log.currentTerm) := by
  rcases step_hint hstep n with hhint | ⟨call, l, hcall, hleader, hrole, hl⟩
  · cases hhint with
    | keep hsame =>
        rw [hsame.role, hsame.leaderId, hsame.term]
        exact ⟨fun hrole => (h.leads n hrole).imp_right fun hled => hled.mono _,
          fun hne => (h.knows n hne).mono _⟩
    | forget hrole hleader => exact ⟨fun hr => absurd hr hrole, fun hne => absurd hleader hne⟩
    | lead hbefore hrole hleader =>
        have hled : CameToLead (trace ++ [⟨c, a, c'⟩]) n (c'.nodes n).log.currentTerm :=
          ⟨_, List.mem_append_right _ List.mem_cons_self, hbefore, hrole, rfl⟩
        rw [hleader, h.id n]
        exact ⟨fun _ => ⟨rfl, hled⟩, fun _ => hled⟩
  · rw [hl]
    refine ⟨fun hr => (nomatch hrole.symm.trans hr), fun _ => ?_⟩
    exact (h.sent call l _ (onItsWay_of_delivered hcall) hleader).mono _

theorem step (h : Hinted trace c) (hstep : c.step a = some c') :
    Hinted (trace ++ [⟨c, a, c'⟩]) c' := by
  have hid : ∀ n, (c'.nodes n).id = n := fun n => (step_id hstep n).trans (h.id n)
  refine ⟨hid, fun n => (h.step_node hstep n).1, fun n => (h.step_node hstep n).2,
    fun call l T hway hleader => ?_⟩
  rcases step_calls hstep hway with hway | hvote | ⟨b, hb⟩
  · exact (h.sent call l T hway hleader).mono _
  · unfold Call.isVote at hvote
    split at hvote
    · next hrpc =>
      rw [hrpc] at hleader
      cases hleader
    · cases hvote
  · obtain ⟨hrole, hname⟩ := RaftNode.leader?_of_broadcast hb
    have hled := ((h.step_node hstep b).1 hrole).2
    rw [hid b] at hname
    cases hname.symm.trans hleader
    exact hled

end Hinted

end Cluster

/-- **Leader hints are sound**: the leader a node names came to lead in the node's
own term at an earlier point of the run, and a leader names itself. -/
theorem leader_hint_sound [StateMachine σ] {members : List NodeId} {config : ClusterConfig}
    {threshold : Nat} {trace : List (Taken (Cluster σ) Action)} {c : Cluster σ}
    (r : Trace Cluster.step (fun _ _ => True) (.init members config threshold) trace c)
    (n : NodeId) :
    ((c.nodes n).leaderId ≠ 0 →
      Cluster.CameToLead trace (c.nodes n).leaderId (c.nodes n).log.currentTerm) ∧
    ((c.nodes n).role = .leader → (c.nodes n).leaderId = n ∧ (c.nodes n).id = n) := by
  have hhinted : Cluster.Hinted trace c := r.invariant (.init members config threshold)
    fun _ _ _ _ h _ hstep => h.step hstep
  exact ⟨hhinted.knows n, fun hrole => ⟨(hhinted.leads n hrole).1, hhinted.id n⟩⟩

/-- Node 1 is elected by node 2 and sends it its first request. -/
def firstContact : List Action := [.timeout 1, .deliver 0, .reply 0, .deliver 1]

theorem leader_hint_sound_of_firstContact :
    ((replay Cluster.step threeNodes.start firstContact : Cluster KvStore).nodes 2).leaderId = 1 ∧
      Cluster.CameToLead (traced Cluster.step (threeNodes.start : Cluster KvStore) firstContact)
        1 1 := by
  have r : Trace Cluster.step (fun _ _ => True) (threeNodes.start : Cluster KvStore)
      (traced Cluster.step threeNodes.start firstContact)
      (replay Cluster.step threeNodes.start firstContact) := trace_replay (by decide +kernel)
  have hleader : ((replay Cluster.step threeNodes.start firstContact :
      Cluster KvStore).nodes 2).leaderId = 1 := by decide +kernel
  have hterm : ((replay Cluster.step threeNodes.start firstContact :
      Cluster KvStore).nodes 2).log.currentTerm = 1 := by decide +kernel
  have hled := (leader_hint_sound r 2).1 (by rw [hleader]; decide)
  rw [hleader, hterm] at hled
  exact ⟨hleader, hled⟩

end KvRaft
