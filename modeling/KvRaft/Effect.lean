import KvRaft.Frame
import Mathlib.Logic.Relation

/-!
# KvRaft.Effect

Seen from one node, every step of a cluster is a sequence of a few effects on
the node's log and on what it has applied (`Effect`): an entry of its own, an
accepted request, an installed snapshot, a snapshot of its own, a batch it
applies.  An invariant of a node is checked against the effects, once each,
and then holds along every step (`Cluster.step_effects`) but a restart.

`Cluster.step_calls` says the same of the calls on their way: a new one asks
for a vote or was sent by a leader as it is after the step.
-/

namespace KvRaft

variable {σ : Type}

namespace RaftNode

/-- The nodes agree on the entries, on the snapshot, on what was applied and on
what it has led to; the term does not decrease. -/
structure SameData (nd nd' : RaftNode σ) : Prop where
  id : nd'.id = nd.id
  initialConfig : nd'.initialConfig = nd.initialConfig
  incarnation : nd'.incarnation = nd.incarnation
  term_le : nd.log.currentTerm ≤ nd'.log.currentTerm
  entries : nd'.log.entries = nd.log.entries
  snapshotIndex : nd'.log.snapshotIndex = nd.log.snapshotIndex
  snapshotTerm : nd'.log.snapshotTerm = nd.log.snapshotTerm
  snapshot : nd'.log.dir.snapshot = nd.log.dir.snapshot
  synced : nd.log.Synced → nd'.log.Synced
  sm : nd'.sm = nd.sm
  config : nd'.config = nd.config
  lastApplied : nd'.lastApplied = nd.lastApplied
  pendingResults : nd'.pendingResults = nd.pendingResults
  applied : nd'.applied = nd.applied

/-- What a node does not write to its log and does not get by applying. -/
theorem SameData.volatile (nd : RaftNode σ) (role : Role) (leaderId : NodeId) (commitIndex : Nat)
    (nextIndex matchIndex : AList fun _ : NodeId => Nat) (votes : Nat → Nat) :
    SameData nd { nd with role, leaderId, commitIndex, nextIndex, matchIndex, votes } :=
  ⟨rfl, rfl, rfl, Nat.le_refl _, rfl, rfl, rfl, rfl, fun h => h, rfl, rfl, rfl, rfl, rfl⟩

/-- The hard state changes as well. -/
theorem SameData.setHardState (nd : RaftNode σ) {term : Nat} (hterm : nd.log.currentTerm ≤ term)
    (votedFor : NodeId) (role : Role) (leaderId : NodeId) (votes : Nat → Nat) :
    SameData nd { nd with log := nd.log.setHardState term votedFor, role, leaderId, votes } :=
  ⟨rfl, rfl, rfl, hterm, rfl, rfl, rfl, rfl, fun h => h.setHardState term votedFor, rfl, rfl, rfl,
    rfl, rfl⟩

theorem SameData.becomeFollower (nd : RaftNode σ) (t : Nat) (l : NodeId) :
    SameData nd (nd.becomeFollower t l) := by
  unfold RaftNode.becomeFollower
  split
  · next hterm => exact .setHardState nd (Nat.le_of_lt hterm) 0 _ _ _
  · exact .volatile nd _ _ _ _ _ _

theorem SameData.castVote (nd : RaftNode σ) (req : RequestVoteReq) :
    SameData nd (nd.castVote req).1 := by
  unfold RaftNode.castVote
  split
  · exact .setHardState nd (Nat.le_refl _) _ _ _ _
  · exact .volatile nd _ _ _ _ _ _

variable [StateMachine σ]

/-- One change of a node's data.  `handled` says which requests a node may
handle and in which state. -/
inductive Effect (handled : RaftNode σ → Rpc → Prop) : RaftNode σ → RaftNode σ → Prop
  | keep {nd nd' : RaftNode σ} (h : SameData nd nd') : Effect handled nd nd'
  | append (nd : RaftNode σ) (data : Bytes) (type : EntryType) :
      Effect handled nd { nd with log := nd.log.appendAndSync [nd.newEntry data type] }
  | accept (nd : RaftNode σ) (req : AppendEntriesReq) (h : handled nd (.appendEntries req))
      (hacc : nd.accepts req) :
      Effect handled nd ((nd.becomeFollower req.term req.leaderId).acceptEntries req)
  | install (nd : RaftNode σ) (req : InstallSnapshotReq) (h : handled nd (.installSnapshot req))
      (hterm : nd.log.currentTerm ≤ req.term)
      (hgt : nd.log.snapshotIndex < req.lastIncludedIndex) :
      Effect handled nd ((nd.becomeFollower req.term req.leaderId).acceptSnapshot req)
  | compact (nd : RaftNode σ) : Effect handled nd nd.forceSnapshot
  | apply (nd : RaftNode σ) : Effect handled nd nd.applyCommittedEntries

/-- Any number of effects. -/
abbrev Effects (handled : RaftNode σ → Rpc → Prop) : RaftNode σ → RaftNode σ → Prop :=
  Relation.ReflTransGen (Effect handled)

/-- **Invariant rule** for effects. -/
theorem Effects.invariant {handled : RaftNode σ → Rpc → Prop} {P : RaftNode σ → Prop}
    {nd nd' : RaftNode σ} (h : Effects handled nd nd') (h0 : P nd)
    (hstep : ∀ x y, P x → Effect handled x y → P y) : P nd' := by
  induction h with
  | refl => exact h0
  | tail _ he ih => exact hstep _ _ ih he

theorem Effect.id {handled : RaftNode σ → Rpc → Prop} {nd nd' : RaftNode σ}
    (h : Effect handled nd nd') : nd'.id = nd.id := by
  cases h with
  | keep hsame => exact hsame.id
  | append => rfl
  | accept req | install req => exact (SameData.becomeFollower nd req.term req.leaderId).id
  | compact => rcases nd.forceSnapshot_cases with h | h <;> rw [h]
  | apply =>
      obtain ⟨_, _, _, _, _, _, happly, -⟩ := nd.applyCommittedEntries_eq
      rw [happly]

theorem Effect.term_le {handled : RaftNode σ → Rpc → Prop} {nd nd' : RaftNode σ}
    (h : Effect handled nd nd') : nd.log.currentTerm ≤ nd'.log.currentTerm := by
  cases h with
  | keep hsame => exact hsame.term_le
  | append => rw [PersistentLog.appendAndSync_currentTerm]
  | accept req =>
      change _ ≤ (PersistentLog.appendAndSync _ _).currentTerm
      rw [PersistentLog.appendAndSync_currentTerm]
      exact (SameData.becomeFollower nd req.term req.leaderId).term_le
  | install req =>
      change _ ≤ (PersistentLog.compactUpTo _ _ _ _).currentTerm
      rw [PersistentLog.compactUpTo_currentTerm]
      exact (SameData.becomeFollower nd req.term req.leaderId).term_le
  | compact =>
      rcases nd.forceSnapshot_cases with h | h
      · rw [h]
      · rw [h, PersistentLog.compactUpTo_currentTerm]
  | apply => rw [applyCommittedEntries_log]

/-! ## The functions of a node -/

section Functions

variable {handled : RaftNode σ → Rpc → Prop} (n : RaftNode σ)

theorem tryAdvanceCommitIndex_effects : Effects handled n n.tryAdvanceCommitIndex := by
  obtain h | ⟨i, -, -, -, h⟩ := n.tryAdvanceCommitIndex_cases
  · rw [h]
  · have hkeep : Effect handled n { n with commitIndex := i } := .keep (.volatile _ _ _ _ _ _ _)
    rw [h]
    exact .tail (.single hkeep) (.apply _)

theorem propose_effects (commandBytes : Bytes) (type : EntryType) :
    Effects handled n (n.propose commandBytes type).1 := by
  obtain h | ⟨-, h⟩ := n.propose_cases commandBytes type
  · rw [h]
  · rw [h]
    exact .head (.append n commandBytes type) (tryAdvanceCommitIndex_effects _)

theorem becomeLeader_effects : Effects handled n n.becomeLeader.1 := by
  by_cases h : n.role = .candidate
  · have hlead : Effect handled n n.lead := .keep (.volatile _ _ _ _ _ _ _)
    rw [becomeLeader_fst h]
    exact .head hlead ((propose_effects _ [] .noOp).trans (tryAdvanceCommitIndex_effects _))
  · rw [becomeLeader_of_ne h]

theorem becomeCandidate_effects : Effects handled n n.becomeCandidate.1 := by
  have hcandidacy : Effect handled n n.candidacy := .keep (.setHardState n (Nat.le_succ _) _ _ _ _)
  have hstands := n.stands_becomeCandidate
  generalize n.becomeCandidate.1 = n', n.becomeCandidate.2 = sent at hstands
  cases hstands with
  | outside => exact .single (.keep (.setHardState n (Nat.le_succ _) _ _ _ _))
  | alone => exact .head hcandidacy (becomeLeader_effects _)
  | ask => exact .single hcandidacy

theorem handle_effects {rpc : Rpc} (h : handled n rpc) : Effects handled n (n.handle rpc).1 := by
  have hhandles := n.handles_handle rpc
  generalize (n.handle rpc).1 = n' at hhandles
  cases hhandles with
  | refuse => exact .refl
  | vote req => exact .single (.keep (.castVote n req))
  | voteLater req =>
      have hfollows : Effect handled n _ := .keep (.becomeFollower n req.term 0)
      exact .tail (.single hfollows) (.keep (.castVote _ req))
  | reject req | covered req => exact .single (.keep (.becomeFollower n req.term req.leaderId))
  | accept req hacc => exact .head (.accept n req h hacc) (.single (.apply _))
  | install req hterm hgt => exact .single (.install n req h hterm hgt)

theorem callback_effects (peer : NodeId) (ans : Answer) :
    Effects handled n (n.callback peer ans).1 := by
  have hcount : ∀ t, Effect handled n (n.countVote t) := fun _ => .keep (.volatile _ _ _ _ _ _ _)
  have htrack : ∀ nextIndex matchIndex, Effect handled n { n with nextIndex, matchIndex } :=
    fun _ _ => .keep (.volatile _ _ _ _ _ _ _)
  have hcalls := n.callsBack_callback peer ans
  generalize (n.callback peer ans).1 = n', (n.callback peer ans).2 = sent at hcalls
  cases hcalls with
  | ignore => exact .refl
  | follow _ t => exact .single (.keep (.becomeFollower n t 0))
  | count => exact .single (hcount _)
  | win => exact .head (hcount _) (becomeLeader_effects _)
  | advance => exact .head (htrack _ _) (tryAdvanceCommitIndex_effects _)
  | track => exact .single (htrack _ _)

theorem maybeSnapshot_effects : Effects handled n n.maybeSnapshot := by
  rcases n.maybeSnapshot_cases with h | h
  · rw [h]
  · rw [h]
    exact .single (.compact n)

/-! ## What they send -/

/-- Only a leader sends entries or snapshots. -/
theorem of_mem_broadcast {n : RaftNode σ} {call : Call} (h : call ∈ n.broadcastAppendEntries) :
    n.role = .leader ∧ ∃ peer, call = n.replicateTo peer := by
  unfold broadcastAppendEntries at h
  split at h
  · cases h
  · next hrole =>
    obtain ⟨peer, -, rfl⟩ := List.mem_map.mp h
    exact ⟨not_not.mp hrole, peer, rfl⟩

theorem becomeLeader_sent : ∀ call ∈ n.becomeLeader.2,
    call ∈ n.becomeLeader.1.broadcastAppendEntries := by
  by_cases h : n.role = .candidate
  · rw [becomeLeader_snd h]
    exact fun _ hcall => hcall
  · rw [becomeLeader_of_ne h]
    exact fun _ hcall => absurd hcall List.not_mem_nil

theorem becomeCandidate_sent : ∀ call ∈ n.becomeCandidate.2,
    call.isVote = true ∨ call ∈ n.becomeCandidate.1.broadcastAppendEntries := by
  intro call hcall
  have hstands := n.stands_becomeCandidate
  generalize n.becomeCandidate.1 = n', n.becomeCandidate.2 = sent at hcall hstands
  cases hstands with
  | outside => exact absurd hcall List.not_mem_nil
  | alone => exact .inr (becomeLeader_sent _ call hcall)
  | ask =>
      obtain ⟨peer, -, rfl⟩ := List.mem_map.mp hcall
      exact .inl rfl

theorem callback_sent (peer : NodeId) (ans : Answer) : ∀ call ∈ (n.callback peer ans).2,
    call ∈ (n.callback peer ans).1.broadcastAppendEntries := by
  intro call hcall
  have hcalls := n.callsBack_callback peer ans
  generalize (n.callback peer ans).1 = n', (n.callback peer ans).2 = sent at hcall hcalls
  cases hcalls with
  | win => exact becomeLeader_sent _ call hcall
  | ignore | follow | count | advance | track => exact absurd hcall List.not_mem_nil

end Functions

end RaftNode

/-! ## Steps of the cluster -/

namespace Cluster

variable [StateMachine σ] {c c' : Cluster σ} {a : Action}

/-- The request node `b` handles in the step, in the state it has before. -/
def Handled (c : Cluster σ) (a : Action) (b : NodeId) (nd : RaftNode σ) (rpc : Rpc) : Prop :=
  nd = c.nodes b ∧ ∃ call, c.delivered a = some call ∧ call.target = b ∧ call.rpc = rpc

/-- Every step but a restart changes a node by effects. -/
theorem step_effects (h : c.step a = some c') (b : NodeId) :
    (a = .restart b ∧ c'.nodes b = (c.nodes b).restart) ∨
      RaftNode.Effects (c.Handled a b) (c.nodes b) (c'.nodes b) := by
  obtain heq | ⟨sent, hown⟩ | ⟨call, hcall, htarget, heq⟩ | ⟨i, r, -, -, -, heq⟩ := step_node h b
  · rw [heq]
    exact .inr .refl
  · -- only a restart is not made of effects
    obtain ⟨rfl, heq, -⟩ | ⟨-, -, heq, -⟩ | ⟨heq, -⟩ | ⟨data, type, heq, -⟩ | ⟨heq, -⟩ |
      ⟨heq, -⟩ := ownStep_cases hown
    · exact .inl ⟨rfl, heq⟩
    all_goals rw [heq]
    · exact .inr (RaftNode.becomeCandidate_effects _)
    · exact .inr .refl
    · exact .inr (RaftNode.propose_effects _ data type)
    · exact .inr (.single (.compact _))
    · exact .inr (RaftNode.maybeSnapshot_effects _)
  · rw [heq]
    exact .inr (RaftNode.handle_effects _ ⟨rfl, call, hcall, htarget, rfl⟩)
  · rw [heq]
    exact .inr (RaftNode.callback_effects _ _ _)

theorem step_id (h : c.step a = some c') (b : NodeId) : (c'.nodes b).id = (c.nodes b).id := by
  rcases step_effects h b with ⟨-, hrestart⟩ | heffects
  · rw [hrestart]
    rfl
  · exact heffects.invariant (P := fun nd => nd.id = (c.nodes b).id) rfl
      fun x y hx he => he.id.trans hx

/-- The call may still be handled. -/
def OnItsWay (c : Cluster σ) (call : Call) : Prop := call ∈ c.calls ∨ call ∈ c.copies

omit [StateMachine σ] in
theorem onItsWay_of_delivered {call : Call} (h : c.delivered a = some call) : c.OnItsWay call := by
  cases a with
  | deliver i => exact .inl (List.mem_of_getElem? h)
  | redeliver i => exact .inr (List.mem_of_getElem? h)
  | _ => contradiction

/-- What a step of one node on its own sends. -/
theorem ownStep_sent {n : NodeId} {nd : RaftNode σ} {sent : List Call}
    (h : c.ownStep a = some (n, nd, sent)) :
    ∀ call ∈ sent, call.isVote = true ∨ call ∈ nd.broadcastAppendEntries := by
  obtain ⟨-, -, rfl⟩ | ⟨-, -, rfl, rfl⟩ | ⟨rfl, rfl⟩ | ⟨data, type, -, rfl⟩ | ⟨-, rfl⟩ | ⟨-, rfl⟩ :=
    ownStep_cases h
  · exact nofun
  · exact (c.nodes n).becomeCandidate_sent
  · exact fun _ hcall => .inr hcall
  all_goals exact nofun

/-- The calls that are sent in a step. -/
def sends (c : Cluster σ) (a : Action) : List Call :=
  match c.ownStep a with
  | some (_, _, sent) => sent
  | none =>
      match a with
      | .reply i =>
          (c.replies[i]?.map fun r => ((c.nodes r.sender).callback r.target r.answer).2).getD []
      | _ => []

theorem sends_ownStep {n : NodeId} {nd : RaftNode σ} {sent : List Call}
    (h : c.ownStep a = some (n, nd, sent)) : c.sends a = sent := by
  unfold sends
  simp only [h]

theorem sends_reply {i : Nat} {r : Reply} (h : c.replies[i]? = some r) :
    c.sends (.reply i) = ((c.nodes r.sender).callback r.target r.answer).2 := by
  simp only [sends, ownStep, h]
  rfl

/-- A call that is on its way after a step was so before or was sent in it. -/
theorem step_onItsWay (h : c.step a = some c') {call : Call} (hc : c'.OnItsWay call) :
    c.OnItsWay call ∨ call ∈ c.sends a := by
  obtain ⟨n, nd, sent, hown, -, rfl⟩ | ⟨i, x, rfl, -, -, rfl⟩ | ⟨i, x, rfl, hx, rfl⟩ |
    ⟨i, x, rfl, hx, rfl⟩ | ⟨i, x, rfl, -, -, rfl⟩ | ⟨i, r, rfl, hr, -, -, rfl⟩ := step_cases h
  · rcases hc with hc | hc
    · refine (List.mem_append.mp hc).imp .inl fun hnew => ?_
      rwa [sends_ownStep hown]
    · exact .inl (.inr hc)
  · exact .inl (hc.imp_left List.mem_of_mem_eraseIdx)
  · -- a copy was there in the original
    refine .inl (hc.imp_left fun hc => (List.mem_append.mp hc).elim id fun hc => ?_)
    exact List.mem_singleton.mp hc ▸ List.mem_of_getElem? hx
  · refine .inl (hc.elim .inl fun hc => (List.mem_append.mp hc).elim .inr fun hc => .inl ?_)
    exact List.mem_singleton.mp hc ▸ List.mem_of_getElem? hx
  · exact .inl hc
  · rcases hc with hc | hc
    · refine (List.mem_append.mp hc).imp .inl fun hnew => ?_
      rwa [sends_reply hr]
    · exact .inl (.inr hc)

/-- A call that is sent is on its way, and asks for a vote or comes from a leader. -/
theorem mem_sends (h : c.step a = some c') {call : Call} (hc : call ∈ c.sends a) :
    call ∈ c'.calls ∧
      (call.isVote = true ∨ ∃ b, call ∈ (c'.nodes b).broadcastAppendEntries) := by
  obtain ⟨n, nd, sent, hown, -, rfl⟩ | ⟨i, x, rfl, -, -, rfl⟩ | ⟨i, x, rfl, -, rfl⟩ |
    ⟨i, x, rfl, -, rfl⟩ | ⟨i, x, rfl, -, -, rfl⟩ | ⟨i, r, rfl, hr, -, -, rfl⟩ := step_cases h
  · rw [sends_ownStep hown] at hc
    refine ⟨List.mem_append_right _ hc, (ownStep_sent hown call hc).imp_right fun hb => ⟨n, ?_⟩⟩
    rwa [put_nodes_self]
  · cases hc
  · cases hc
  · cases hc
  · cases hc
  · rw [sends_reply hr] at hc
    refine ⟨List.mem_append_right _ hc, .inr ⟨r.sender, ?_⟩⟩
    simpa only [put, Function.update_self] using RaftNode.callback_sent _ _ _ call hc

/-- A call that is on its way after a step was so before, asks for a vote, or
was just sent by a leader. -/
theorem step_calls (h : c.step a = some c') {call : Call} (hc : c'.OnItsWay call) :
    c.OnItsWay call ∨ call.isVote = true ∨
      ∃ b, call ∈ (c'.nodes b).broadcastAppendEntries :=
  (step_onItsWay h hc).imp_right fun hsent => (mem_sends h hsent).2

end Cluster

end KvRaft
