import KvRaft.FixedConfig
import KvRaft.Replicas
import KvRaft.Safety
import Mathlib.Data.List.MinMax
import Mathlib.Data.Prod.Lex

/-!
# KvRaft.Electable

Elections never get stuck: from every state of every run, each majority of the
voters can elect one of its members, by its timers and messages alone and without
the rest of the cluster.

* `Cluster.Within` — the steps a part of the cluster takes on its own;
* `Cluster.Prepares` — what deposing a stale leader and timing out leave alone;
* `Cluster.Campaign` — a candidate and the voters that will grant its request;
* `majority_elects` — the member whose log is most up to date is elected, in a term
  no member is beyond.
-/

namespace KvRaft

variable {σ : Type}

/-- A list that has an element has one that is largest in some respect. -/
theorem exists_max_of_mem {α β : Type} [LinearOrder β] {l : List α} {x : α} (hx : x ∈ l)
    (f : α → β) : ∃ y ∈ l, ∀ z ∈ l, f z ≤ f y := by
  have hsome : l.argmax f ≠ none := mt List.argmax_eq_none.mp (List.ne_nil_of_mem hx)
  obtain ⟨y, hy⟩ := Option.ne_none_iff_exists'.mp hsome
  exact ⟨y, List.argmax_mem hy, fun z hz => List.le_of_mem_argmax hz hy⟩

/-- A timer fires, or a message arrives. -/
def Action.isTick : Action → Bool
  | .timeout _ | .heartbeat _ | .deliver _ | .reply _ => true
  | _ => false

namespace RaftNode

namespace SameData

variable {n m : RaftNode σ}

theorem lastIndex (h : SameData n m) : m.log.lastIndex = n.log.lastIndex := by
  simp only [PersistentLog.lastIndex, h.entries, h.snapshotIndex]

theorem lastTerm (h : SameData n m) : m.log.lastTerm = n.log.lastTerm := by
  simp only [PersistentLog.lastTerm, h.entries, h.snapshotTerm]

/-- Whether a node may have the vote depends on its log alone. -/
theorem logOk_iff {n' m' : RaftNode σ} (h : SameData n n') (hm : SameData m m') :
    m'.logOk n'.requestVoteReq ↔ m.logOk n.requestVoteReq := by
  simp only [logOk, requestVoteReq, h.lastIndex, h.lastTerm, hm.lastIndex, hm.lastTerm]

theorem handleRequestVote (n : RaftNode σ) (req : RequestVoteReq) :
    SameData n (n.handleRequestVote req).1 := by
  unfold RaftNode.handleRequestVote
  split
  · exact .refl n
  · split
    · exact (SameData.becomeFollower n _ _).trans (.castVote _ req)
    · exact .castVote n req

end SameData

variable [StateMachine σ] {n m : RaftNode σ}

/-- A node of a later term refuses what a leader sends, and the leader then follows. -/
theorem refuses_replicateTo (h : n.log.currentTerm < m.log.currentTerm) (peer : NodeId) :
    (m.handle (n.replicateTo peer).rpc).1 = m ∧
      (n.callback peer (m.handle (n.replicateTo peer).rpc).2).1 =
        n.becomeFollower m.log.currentTerm 0 := by
  have happend : m.handleAppendEntries (n.appendEntriesReq peer) =
      (m, ⟨m.log.currentTerm, false, 0, 0, 0⟩) := if_pos h
  have hinstall : m.handleInstallSnapshot n.installSnapshotReq = (m, ⟨m.log.currentTerm⟩) :=
    if_pos h
  unfold replicateTo
  dsimp only
  split
  · simp only [handle, hinstall, callback, onInstallSnapshotReply, if_pos h, true_and,
      gt_iff_lt]
  · simp only [handle, happend, callback, onAppendEntriesReply, if_pos h, true_and,
      gt_iff_lt]

/-- A voter with peers asks each of them for its vote. -/
theorem becomeCandidate_eq (hvoter : n.id ∈ n.config.voters) (hpeers : 1 < n.majority) :
    n.becomeCandidate = (n.candidacy, (n.config.voters.filter (· ≠ n.id)).map fun peer =>
      ⟨n.id, peer, n.incarnation, .requestVote n.stand.requestVoteReq n.majority⟩) := by
  have hknown : ¬ (n.stand.config.hasVoter n.stand.id = false ∧ n.stand.config.voters.length > 0) :=
    fun h => by
      have hself : n.config.hasVoter n.id = true := by simpa using hvoter
      exact absurd (hself.symm.trans h.1) (by simp)
  unfold becomeCandidate
  simp only [if_neg hknown]
  exact if_neg (Nat.not_le_of_lt hpeers)

theorem becomeLeader_role (h : n.role = .candidate) : n.becomeLeader.1.role = .leader := by
  rw [becomeLeader_fst h, tryAdvanceCommitIndex_role, propose_role]
  rfl

/-- A voter without peers leads at once. -/
theorem becomeCandidate_alone (hvoter : n.id ∈ n.config.voters) (halone : n.majority ≤ 1) :
    n.becomeCandidate = n.candidacy.becomeLeader := by
  have hknown : ¬ (n.stand.config.hasVoter n.stand.id = false ∧ n.stand.config.voters.length > 0) :=
    fun h => by
      have hself : n.config.hasVoter n.id = true := by simpa using hvoter
      exact absurd (hself.symm.trans h.1) (by simp)
  unfold becomeCandidate
  simp only [if_neg hknown]
  exact if_pos halone

/-- A voter of an earlier term whose log is not ahead grants the request. -/
theorem handle_grants {req : RequestVoteReq} (majority : Nat) (hterm : n.log.currentTerm < req.term)
    (hok : n.logOk req) :
    (n.handle (.requestVote req majority)).2 = .requestVote req majority ⟨req.term, true⟩ ∧
      (n.handle (.requestVote req majority)).1.log.currentTerm = req.term := by
  have hfollows : (n.becomeFollower req.term 0).log = n.log.setHardState req.term 0 := if_pos hterm
  have hvotes : (n.becomeFollower req.term 0).canVote req ∧
      (n.becomeFollower req.term 0).logOk req := by
    unfold canVote logOk
    rw [hfollows]
    exact ⟨.inl rfl, hok⟩
  simp only [handle, handleRequestVote, if_neg (Nat.lt_asymm hterm), gt_iff_lt, if_pos hterm,
    castVote, if_pos hvotes, hfollows]
  exact ⟨rfl, rfl⟩

/-- A granted vote is counted, and enough of them make the candidate leader. -/
theorem callback_granted {req : RequestVoteReq} (hrole : n.role = .candidate)
    (hterm : n.log.currentTerm = req.term) (peer : NodeId) (majority : Nat) :
    (n.callback peer (.requestVote req majority ⟨req.term, true⟩)).1 =
      if majority ≤ n.votes req.term + 1 then (n.countVote req.term).becomeLeader.1
      else n.countVote req.term := by
  have hstands : ¬ (n.role ≠ .candidate ∨ n.log.currentTerm ≠ req.term) := by simp [hrole, hterm]
  simp only [callback, onRequestVoteReply, if_neg hstands, gt_iff_lt, Nat.lt_irrefl, if_false,
    if_true, ge_iff_le]
  split <;> rfl

end RaftNode

namespace Cluster

/-- The node that acts in a step. -/
def actor (c : Cluster σ) : Action → Option NodeId
  | .timeout n | .heartbeat n | .propose n _ | .addServer n _ _ | .removeServer n _
  | .readBarrier n | .forceSnapshot n | .maybeSnapshot n | .restart n => some n
  | .deliver i => c.calls[i]?.map Call.target
  | .redeliver i => c.copies[i]?.map Call.target
  | .reply i => c.replies[i]?.map Reply.sender
  | .copy _ | .copySilent _ => none

/-- Only nodes of `q` act. -/
def Within (q : List NodeId) (c : Cluster σ) (a : Action) : Prop := ∀ n ∈ c.actor a, n ∈ q

instance (q : List NodeId) (c : Cluster σ) (a : Action) : Decidable (c.Within q a) :=
  inferInstanceAs (Decidable (∀ n ∈ c.actor a, _))

/-- Only timers and messages of nodes of `q`. -/
def Ticks (q : List NodeId) (c : Cluster σ) (a : Action) : Prop :=
  a.isTick = true ∧ c.Within q a

instance (q : List NodeId) (c : Cluster σ) (a : Action) : Decidable (c.Ticks q a) :=
  inferInstanceAs (Decidable (_ ∧ _))

variable [StateMachine σ] {q : List NodeId} {c c' c'' : Cluster σ} {n m : NodeId}

/-! ## Single steps -/

theorem step_timeout (hn : n ∈ c.members) (hrole : (c.nodes n).role ≠ .leader) :
    c.step (.timeout n) =
      some (c.put n (c.nodes n).becomeCandidate.1 (c.nodes n).becomeCandidate.2) := by
  simp only [step, ownStep, if_neg hrole]
  exact if_pos hn

theorem step_heartbeat (hn : n ∈ c.members) :
    c.step (.heartbeat n) = some (c.put n (c.nodes n) (c.nodes n).broadcastAppendEntries) := by
  simp only [step, ownStep]
  exact if_pos hn

/-- A call on its way reaches its target, and the reply to it is the last. -/
theorem exists_step_deliver {call : Call} (hcall : call ∈ c.calls)
    (htarget : call.target ∈ c.members) (hq : call.target ∈ q) :
    ∃ i c', c.Ticks q (.deliver i) ∧ c.step (.deliver i) = some c' ∧
      c' = c.receive call (c.calls.eraseIdx i) ∧
      ∀ call' ∈ c.calls, call' ≠ call → call' ∈ c'.calls := by
  obtain ⟨i, hi⟩ := List.mem_iff_getElem?.mp hcall
  refine ⟨i, _, ⟨rfl, fun m hm => ?_⟩, ?_, rfl, fun call' hcall' hne => ?_⟩
  · simp only [actor, hi, Option.map_some, Option.mem_def, Option.some.injEq] at hm
    exact hm ▸ hq
  · simp only [step, hi]
    exact if_pos htarget
  · exact (List.mem_cons.mp ((perm_cons_eraseIdx hi).mem_iff.mpr hcall')).resolve_left hne

/-- The last reply reaches its callback. -/
theorem step_reply_last {r : Reply} {replies : List Reply} (hr : c.replies = replies ++ [r])
    (hsender : r.sender ∈ c.members)
    (hlife : (c.nodes r.sender).incarnation = r.incarnation) (hq : r.sender ∈ q) :
    c.Ticks q (.reply replies.length) ∧
      c.step (.reply replies.length) =
        some { c.put r.sender ((c.nodes r.sender).callback r.target r.answer).1
          ((c.nodes r.sender).callback r.target r.answer).2 with
            replies := c.replies.eraseIdx replies.length } := by
  have hlast : c.replies[replies.length]? = some r := by
    rw [hr, List.getElem?_append_right (Nat.le_refl _), Nat.sub_self]
    rfl
  refine ⟨⟨rfl, fun m hm => ?_⟩, ?_⟩
  · simp only [actor, hlast, Option.map_some, Option.mem_def, Option.some.injEq] at hm
    exact hm ▸ hq
  · simp only [step, hlast]
    exact if_pos ⟨hsender, hlife⟩

/-- A call is delivered and its reply arrives, with nothing in between. -/
theorem exists_run_exchange {call : Call} (hcall : call ∈ c.calls)
    (hmembers : call.sender ∈ c.members ∧ call.target ∈ c.members)
    (hq : call.sender ∈ q ∧ call.target ∈ q) (hne : call.sender ≠ call.target)
    (hlife : (c.nodes call.sender).incarnation = call.incarnation) :
    let handled := (c.nodes call.target).handle call.rpc
    let out := (c.nodes call.sender).callback call.target handled.2
    ∃ c', Run step (Ticks q) c c' ∧ c'.members = c.members ∧
      c'.nodes call.sender = out.1 ∧ c'.nodes call.target = handled.1 ∧
      (∀ m, m ≠ call.sender → m ≠ call.target → c'.nodes m = c.nodes m) ∧
      ∀ call' ∈ c.calls, call' ≠ call → call' ∈ c'.calls := by
  intro handled out
  -- the request arrives, and its answer is the last reply
  obtain ⟨i, c₁, hok, hstep, rfl, hcalls⟩ := exists_step_deliver hcall hmembers.2 hq.2
  set c₁ := c.receive call (c.calls.eraseIdx i) with hc₁
  have hsender : c₁.nodes call.sender = c.nodes call.sender := Function.update_of_ne hne _ _
  have hreplies : c₁.replies = c.replies ++
      [⟨call.sender, call.target, call.incarnation, handled.2⟩] := rfl
  -- which comes back in the life in which the request was sent
  obtain ⟨hok', hstep'⟩ := step_reply_last hreplies hmembers.1 (hsender ▸ hlife) hq.1
  refine ⟨_, .snoc (.single hok hstep) hok' hstep', rfl, ?_, ?_, fun m hm hm' => ?_,
    fun call' hcall' hne' => List.mem_append_left _ (hcalls call' hcall' hne')⟩
  · simp only [put, Function.update_self, hsender]
    rfl
  · simp only [put, Function.update_of_ne hne.symm]
    exact Function.update_self _ _ _
  · simp only [put, Function.update_of_ne hm]
    exact Function.update_of_ne hm' _ _

/-- A leader's heartbeat reaches a peer, and the reply arrives. -/
theorem exists_heartbeat_exchange (hn : n ∈ c.members ∧ n ∈ q) (hm : m ∈ c.members ∧ m ∈ q)
    (hne : n ≠ m) (hid : (c.nodes n).id = n) (hvoter : m ∈ (c.nodes n).config.voters)
    (hrole : (c.nodes n).role = .leader) :
    let handled := (c.nodes m).handle ((c.nodes n).replicateTo m).rpc
    ∃ c', Run step (Ticks q) c c' ∧ c'.members = c.members ∧
      c'.nodes n = ((c.nodes n).callback m handled.2).1 ∧ c'.nodes m = handled.1 ∧
      ∀ x, x ≠ n → x ≠ m → c'.nodes x = c.nodes x := by
  intro handled
  set call := (c.nodes n).replicateTo m with hcall
  set c₁ := c.put n (c.nodes n) (c.nodes n).broadcastAppendEntries with hc₁
  -- a broadcast leaves the node as it is, with the request among the calls
  have hnodes : c₁.nodes = c.nodes := Function.update_eq_self _ _
  have hsent : call ∈ c₁.calls := by
    refine List.mem_append_right _ ?_
    rw [RaftNode.broadcastAppendEntries, if_neg (not_not.mpr hrole), hid]
    exact List.mem_map_of_mem (List.mem_filter.mpr ⟨hvoter, by simpa using hne.symm⟩)
  have hsender : call.sender = n := hid
  obtain ⟨c₂, hrun, hmembers, hown, htarget, hothers, -⟩ := exists_run_exchange (q := q) hsent
    (hsender ▸ ⟨hn.1, hm.1⟩) (hsender ▸ ⟨hn.2, hm.2⟩) (hsender ▸ hne) (by rw [hnodes, hsender]; rfl)
  rw [hnodes, hsender] at hown
  rw [hnodes] at htarget
  rw [hsender, hnodes] at hothers
  have hticks : c.Ticks q (.heartbeat n) :=
    ⟨rfl, fun x hx => by rw [← Option.some.inj hx]; exact hn.2⟩
  exact ⟨c₂, .trans (.single hticks (step_heartbeat hn.1)) hrun, hmembers, hown, htarget, hothers⟩

/-! ## Before the campaign -/

/-- Nothing happens but to the hard state and the role of `n`. -/
structure Prepares (q : List NodeId) (n : NodeId) (c c' : Cluster σ) : Prop where
  run : Run step (Ticks q) c c'
  members : c'.members = c.members
  others : ∀ m, m ≠ n → c'.nodes m = c.nodes m
  own : (c.nodes n).SameData (c'.nodes n)
  commitIndex : (c'.nodes n).commitIndex = (c.nodes n).commitIndex

namespace Prepares

theorem refl (q : List NodeId) (n : NodeId) (c : Cluster σ) : Prepares q n c c :=
  ⟨.refl c, rfl, fun _ _ => rfl, .refl _, rfl⟩

theorem trans (h : Prepares q n c c') (h' : Prepares q n c' c'') : Prepares q n c c'' where
  run := h.run.trans h'.run
  members := h'.members.trans h.members
  others := fun m hm => (h'.others m hm).trans (h.others m hm)
  own := h.own.trans h'.own
  commitIndex := h'.commitIndex.trans h.commitIndex

theorem sameData (h : Prepares q n c c') (m : NodeId) : (c.nodes m).SameData (c'.nodes m) := by
  by_cases hm : m = n
  · exact hm ▸ h.own
  · rw [h.others m hm]
    exact .refl _

end Prepares

/-- A leader steps down when it hears of a later term. -/
theorem exists_depose (hn : n ∈ c.members ∧ n ∈ q) (hm : m ∈ c.members ∧ m ∈ q)
    (hid : (c.nodes n).id = n) (hvoter : m ∈ (c.nodes n).config.voters)
    (hrole : (c.nodes n).role = .leader)
    (hlater : (c.nodes n).log.currentTerm < (c.nodes m).log.currentTerm) :
    ∃ c', Prepares q n c c' ∧ (c'.nodes n).role ≠ .leader := by
  have hne : n ≠ m := fun h => by rw [h] at hlater; exact Nat.lt_irrefl _ hlater
  -- the peer refuses and answers with its later term, which deposes the leader
  obtain ⟨hrefuses, hfollows⟩ := RaftNode.refuses_replicateTo hlater m
  obtain ⟨c', hrun, hmembers, hown, htarget, hothers⟩ :=
    exists_heartbeat_exchange hn hm hne hid hvoter hrole
  rw [hfollows] at hown
  refine ⟨c', {
    run := hrun
    members := hmembers
    others := fun x hx => ?_
    own := by rw [hown]; exact .becomeFollower _ _ _
    commitIndex := by rw [hown]; rfl }, ?_⟩
  · by_cases hxm : x = m
    · rw [hxm]
      exact htarget.trans hrefuses
    · exact hothers x hx hxm
  · rw [hown]
    exact Role.noConfusion

/-- A node that is not leader and has peers stands for election in the next term. -/
theorem exists_stand (hn : n ∈ c.members ∧ n ∈ q) (hid : (c.nodes n).id = n)
    (hvoter : n ∈ (c.nodes n).config.voters) (hpeers : 1 < (c.nodes n).majority)
    (hrole : (c.nodes n).role ≠ .leader) :
    ∃ c', Prepares q n c c' ∧ c'.nodes n = (c.nodes n).candidacy ∧
      ∀ p ∈ (c.nodes n).config.voters, p ≠ n →
        ⟨n, p, (c.nodes n).incarnation,
          .requestVote (c.nodes n).stand.requestVoteReq (c.nodes n).majority⟩ ∈ c'.calls := by
  have hticks : c.Ticks q (.timeout n) :=
    ⟨rfl, fun x hx => by rw [← Option.some.inj hx]; exact hn.2⟩
  -- it asks every other voter at once
  have hasks := RaftNode.becomeCandidate_eq (hid.symm ▸ hvoter) hpeers
  have hstep := step_timeout hn.1 hrole
  rw [hasks] at hstep
  refine ⟨_, {
    run := .single hticks hstep
    members := rfl
    others := fun m hm => put_nodes_of_ne hm _ _ _
    own := by
      rw [put_nodes_self]
      exact .setHardState _ (Nat.le_succ _) _ _ _ _
    commitIndex := by rw [put_nodes_self]; rfl }, put_nodes_self _ _ _ _, fun p hp hne => ?_⟩
  refine List.mem_append_right _ ?_
  rw [hid]
  exact List.mem_map_of_mem (f := fun peer : NodeId => (⟨n, peer, _, _⟩ : Call))
    (List.mem_filter.mpr ⟨hp, by simpa using hne⟩)

/-- It can go on until its term is as high as we like. -/
theorem exists_raise (hn : n ∈ c.members ∧ n ∈ q) (hid : (c.nodes n).id = n)
    (hvoter : n ∈ (c.nodes n).config.voters) (hpeers : 1 < (c.nodes n).majority)
    (hrole : (c.nodes n).role ≠ .leader) (k : Nat) :
    ∃ c', Prepares q n c c' ∧ (c'.nodes n).role ≠ .leader ∧ k ≤ (c'.nodes n).log.currentTerm := by
  induction k with
  | zero => exact ⟨c, .refl q n c, hrole, Nat.zero_le _⟩
  | succ k ih =>
      obtain ⟨c₁, hprepares, hrole₁, hk⟩ := ih
      obtain ⟨c₂, hstands, hcandidacy, -⟩ := exists_stand (hprepares.members ▸ hn)
        (hprepares.own.id.trans hid) (by rw [hprepares.own.config]; exact hvoter)
        (by rw [RaftNode.majority, hprepares.own.config]; exact hpeers) hrole₁
      refine ⟨c₂, hprepares.trans hstands, ?_, ?_⟩
      · rw [hcandidacy]
        exact Role.noConfusion
      · rw [hcandidacy]
        exact Nat.succ_le_succ hk

/-! ## The campaign -/

/-- Node `n` was elected with the log it had, and nobody else's log has changed. -/
structure Elected (q : List NodeId) (n : NodeId) (c c' : Cluster σ) : Prop where
  leader : ∃ nd, nd.role = .candidate ∧ (c.nodes n).SameData nd ∧
    nd.commitIndex = (c.nodes n).commitIndex ∧ c'.nodes n = nd.becomeLeader.1
  others : ∀ m, m ≠ n → (c.nodes m).SameData (c'.nodes m)
  latest : ∀ m ∈ q, (c'.nodes m).log.currentTerm ≤ (c'.nodes n).log.currentTerm

theorem Elected.role (h : Elected q n c c') : (c'.nodes n).role = .leader := by
  obtain ⟨nd, hrole, -, -, heq⟩ := h.leader
  rw [heq, RaftNode.becomeLeader_role hrole]

/-- Preparations do not matter. -/
theorem Elected.of_prepares (hprepares : Prepares q m c c') (h : Elected q n c' c'') :
    Elected q n c c'' where
  leader := by
    obtain ⟨nd, hrole, hsame, hcommit, heq⟩ := h.leader
    refine ⟨nd, hrole, (hprepares.sameData n).trans hsame, hcommit.trans ?_, heq⟩
    by_cases hn : n = m
    · rw [hn]
      exact hprepares.commitIndex
    · rw [hprepares.others n hn]
  others := fun x hx => (hprepares.sameData x).trans (h.others x hx)
  latest := h.latest

/-- Node `n` stands in term `t`, and `peers` are voters of `q` that it has asked and
that will grant its request.  The logs are those of `c₀`. -/
structure Campaign (q : List NodeId) (n : NodeId) (t : Nat) (req : RequestVoteReq) (majority : Nat)
    (peers : List NodeId) (c₀ c : Cluster σ) : Prop where
  mem : n ∈ c.members ∧ n ∈ q
  role : (c.nodes n).role = .candidate
  term : (c.nodes n).log.currentTerm = t ∧ req.term = t
  bounded : ∀ m ∈ q, (c.nodes m).log.currentTerm ≤ t
  kept : ∀ m, (c₀.nodes m).SameData (c.nodes m)
  commitIndex : (c.nodes n).commitIndex = (c₀.nodes n).commitIndex
  peers_mem : ∀ p ∈ peers, p ∈ c.members ∧ p ∈ q ∧ p ≠ n
  peers_nodup : peers.Nodup
  asked : ∀ p ∈ peers, ⟨n, p, (c.nodes n).incarnation, .requestVote req majority⟩ ∈ c.calls
  grants : ∀ p ∈ peers, (c.nodes p).log.currentTerm < t ∧ (c.nodes p).logOk req

/-- The next peer is asked and its vote counted: either the node leads, or the
campaign goes on with one vote more. -/
theorem Campaign.next {t majority : Nat} {req : RequestVoteReq} {p : NodeId} {peers : List NodeId}
    {c₀ : Cluster σ} (h : Campaign q n t req majority (p :: peers) c₀ c) :
    ∃ c', Run step (Ticks q) c c' ∧
      (Elected q n c₀ c' ∨
        Campaign q n t req majority peers c₀ c' ∧
          (c'.nodes n).votes t = (c.nodes n).votes t + 1 ∧
          (c.nodes n).votes t + 1 < majority) := by
  -- the first of the peers still to be asked
  obtain ⟨hp, hpeers⟩ := List.forall_mem_cons.mp h.peers_mem
  obtain ⟨hterm, hok⟩ := h.grants p List.mem_cons_self
  obtain ⟨hnotin, hnodup⟩ := List.nodup_cons.mp h.peers_nodup
  obtain ⟨c', hrun, hmembers, hown, htarget, hothers, hcalls⟩ :=
    exists_run_exchange (q := q) (h.asked p List.mem_cons_self) ⟨h.mem.1, hp.1⟩ ⟨h.mem.2, hp.2.1⟩
      hp.2.2.symm rfl
  dsimp only at hown htarget hothers
  -- it grants its vote, and the candidate counts it
  obtain ⟨hanswer, hvoter⟩ := RaftNode.handle_grants majority (h.term.2 ▸ hterm) hok
  rw [hanswer, RaftNode.callback_granted h.role (h.term.1.trans h.term.2.symm) p majority,
    h.term.2] at hown
  rw [← htarget, h.term.2] at hvoter
  -- nobody's data changes
  have hothers' : ∀ m, m ≠ n → (c₀.nodes m).SameData (c'.nodes m) := fun m hm => by
    by_cases hmp : m = p
    · rw [hmp, htarget]
      exact (h.kept p).trans (.handleRequestVote _ req)
    · rw [hothers m hm hmp]
      exact h.kept m
  -- and nobody gets beyond the term
  have hbounded : (c'.nodes n).log.currentTerm = t →
      ∀ m ∈ q, (c'.nodes m).log.currentTerm ≤ t := fun hterm' m hm => by
    by_cases hmn : m = n
    · rw [hmn, hterm']
    · by_cases hmp : m = p
      · rw [hmp, hvoter]
      · rw [hothers m hmn hmp]
        exact h.bounded m hm
  have hcount : (c₀.nodes n).SameData ((c.nodes n).countVote t) :=
    (h.kept n).trans (.volatile _ _ _ _ _ _ _)
  refine ⟨c', hrun, ?_⟩
  split at hown
  · -- that was the last vote it needed
    have hrole : ((c.nodes n).countVote t).role = .candidate := h.role
    have hterm' : (c'.nodes n).log.currentTerm = t := by
      rw [hown, RaftNode.becomeLeader_log hrole, PersistentLog.appendAndSync_currentTerm]
      exact h.term.1
    exact .inl ⟨⟨_, hrole, hcount, h.commitIndex, hown⟩, hothers',
      fun m hm => hterm' ▸ hbounded hterm' m hm⟩
  · next hfew =>
    -- it still needs some: the campaign goes on with the others
    have hterm' : (c'.nodes n).log.currentTerm = t := by
      rw [hown]
      exact h.term.1
    refine .inr ⟨{
      mem := hmembers ▸ h.mem
      role := by rw [hown]; exact h.role
      term := ⟨hterm', h.term.2⟩
      bounded := hbounded hterm'
      kept := fun m => by
        by_cases hm : m = n
        · rw [hm, hown]
          exact hcount
        · exact hothers' m hm
      commitIndex := by rw [hown]; exact h.commitIndex
      peers_mem := hmembers ▸ hpeers
      peers_nodup := hnodup
      -- the requests to the others are still on their way
      asked := fun x hx => by
        rw [hown]
        refine hcalls _ (h.asked x (List.mem_cons_of_mem p hx)) fun heq => hnotin ?_
        have htarget : x = p := congrArg Call.target heq
        rwa [← htarget]
      grants := fun x hx => by
        have hxp : x ≠ p := fun hxp => hnotin (hxp ▸ hx)
        rw [hothers x (hpeers x hx).2.2 hxp]
        exact h.grants x (List.mem_cons_of_mem p hx) }, ?_, Nat.lt_of_not_le hfew⟩
    rw [hown]
    exact Function.update_self _ _ _

/-- A campaign with enough peers is won. -/
theorem Campaign.won {t majority : Nat} {req : RequestVoteReq} {peers : List NodeId}
    {c₀ : Cluster σ} (h : Campaign q n t req majority peers c₀ c)
    (hfew : (c.nodes n).votes t < majority)
    (henough : majority ≤ (c.nodes n).votes t + peers.length) :
    ∃ c', Run step (Ticks q) c c' ∧ Elected q n c₀ c' := by
  induction peers generalizing c with
  | nil =>
      rw [List.length_nil] at henough
      omega
  | cons p peers ih =>
      rw [List.length_cons] at henough
      obtain ⟨c₁, hrun, helected | ⟨hnext, hvotes, hstill⟩⟩ := h.next
      · exact ⟨c₁, hrun, helected⟩
      · obtain ⟨c₂, hrun', hwon⟩ := ih hnext (by omega) (by omega)
        exact ⟨c₂, hrun.trans hrun', hwon⟩

section Election

variable {voters : List NodeId} (hq : IsMajority voters q) (hmembers : ∀ m ∈ q, m ∈ c.members)
  (hn : n ∈ q) (hid : (c.nodes n).id = n) (hconfig : (c.nodes n).config.voters = voters)
  (hrole : (c.nodes n).role ≠ .leader)

include hq hmembers hn hid hconfig hrole

/-- A node whose log is not behind comes to stand in a term in which every other node of
the majority has reason to vote for it. -/
theorem exists_campaign (hpeers : 1 < (c.nodes n).majority)
    (hlog : ∀ m ∈ q, (c.nodes m).logOk (c.nodes n).requestVoteReq) :
    ∃ c' t req, Run step (Ticks q) c c' ∧ (c'.nodes n).votes t = 1 ∧
      Campaign q n t req (voters.length / 2 + 1) (q.erase n) c c' := by
  have hmem : n ∈ c.members ∧ n ∈ q := ⟨hmembers n hn, hn⟩
  have hvoter : n ∈ (c.nodes n).config.voters := hconfig ▸ hq.sub n hn
  -- a term beyond all others, and one more to ask for votes in
  obtain ⟨latest, -, hk⟩ := exists_max_of_mem hn fun m => (c.nodes m).log.currentTerm
  set k := (c.nodes latest).log.currentTerm
  obtain ⟨c₁, hraise, hrole₁, hk₁⟩ := exists_raise hmem hid hvoter hpeers hrole k
  have hmajority : (c₁.nodes n).majority = voters.length / 2 + 1 := by
    rw [RaftNode.majority, hraise.own.config, hconfig]
  obtain ⟨c₂, hstand, hcandidacy, hasked⟩ := exists_stand (hraise.members ▸ hmem)
    (hraise.own.id.trans hid) (by rw [hraise.own.config]; exact hvoter)
    (by rw [RaftNode.majority, hraise.own.config]; exact hpeers) hrole₁
  have hprepares := hraise.trans hstand
  -- the others have stayed where they were
  have hothers : ∀ m ∈ q, m ≠ n → (c₂.nodes m).log.currentTerm ≤ k := fun m hm hne => by
    rw [hprepares.others m hne]
    exact hk m hm
  set t := (c₁.nodes n).log.currentTerm + 1 with ht
  have hterm : (c₂.nodes n).log.currentTerm = t := by rw [hcandidacy]; rfl
  have hpeer : ∀ p ∈ q.erase n, p ∈ q ∧ p ≠ n := fun p hp => by
    have := hq.nodup.mem_erase_iff.mp hp
    exact ⟨this.2, this.1⟩
  refine ⟨c₂, t, (c₁.nodes n).stand.requestVoteReq, hprepares.run, ?_, {
    mem := hprepares.members ▸ hmem
    role := by rw [hcandidacy]; rfl
    term := ⟨hterm, rfl⟩
    bounded := fun m hm => by
      by_cases hmn : m = n
      · rw [hmn, hterm]
      · exact (hothers m hm hmn).trans (hk₁.trans (Nat.le_succ _))
    kept := hprepares.sameData
    commitIndex := hprepares.commitIndex
    peers_mem := fun p hp =>
      ⟨by rw [hprepares.members]; exact hmembers p (hpeer p hp).1, hpeer p hp⟩
    peers_nodup := hq.nodup.erase n
    asked := fun p hp => by
      rw [hcandidacy, ← hmajority]
      refine hasked p ?_ (hpeer p hp).2
      rw [hraise.own.config, hconfig]
      exact hq.sub p (hpeer p hp).1
    grants := fun p hp => by
      obtain ⟨hpq, hne⟩ := hpeer p hp
      refine ⟨Nat.lt_succ_of_le ((hothers p hpq hne).trans hk₁), ?_⟩
      rw [hprepares.others p hne]
      exact (hraise.own.logOk_iff (.refl _)).mpr (hlog p hpq) }⟩
  rw [hcandidacy]
  exact Function.update_self _ _ _

/-- Where the node is the only voter, the time-out alone makes it the leader. -/
theorem exists_election_alone (hpeers : ¬ 1 < (c.nodes n).majority) :
    ∃ c', Run step (Ticks q) c c' ∧ Elected q n c c' := by
  have hvoter : n ∈ (c.nodes n).config.voters := hconfig ▸ hq.sub n hn
  have hstep := step_timeout (hmembers n hn) hrole
  have hticks : c.Ticks q (.timeout n) :=
    ⟨rfl, fun x hx => by rw [← Option.some.inj hx]; exact hn⟩
  refine ⟨_, .single hticks hstep, ⟨(c.nodes n).candidacy, rfl,
    .setHardState _ (Nat.le_succ _) _ _ _ _, rfl, ?_⟩, fun m hm => ?_, fun m hm => ?_⟩
  · rw [put_nodes_self,
      RaftNode.becomeCandidate_alone (hid.symm ▸ hvoter) (Nat.le_of_not_lt hpeers)]
  · rw [put_nodes_of_ne hm]
    exact .refl _
  · have hmajority : (c.nodes n).majority = voters.length / 2 + 1 := by
      rw [RaftNode.majority, hconfig]
    have hmore := hq.more
    have hlen := (hq.nodup.subperm hq.sub).length_le
    have hone : q.length = 1 := by omega
    obtain ⟨x, rfl⟩ := List.length_eq_one_iff.mp hone
    rw [List.mem_singleton.mp hm, List.mem_singleton.mp hn]

/-- A node of a majority whose log is not behind and that does not lead is elected. -/
theorem exists_election (hlog : ∀ m ∈ q, (c.nodes m).logOk (c.nodes n).requestVoteReq) :
    ∃ c', Run step (Ticks q) c c' ∧ Elected q n c c' := by
  by_cases hpeers : 1 < (c.nodes n).majority
  · obtain ⟨c', t, req, hrun, hvotes, hcampaign⟩ :=
      exists_campaign hq hmembers hn hid hconfig hrole hpeers hlog
    rw [RaftNode.majority, hconfig] at hpeers
    -- its own vote and those of the rest of the majority
    have hmore := hq.more
    have hlength := List.length_erase_of_mem hn
    obtain ⟨c'', hrun', helected⟩ := hcampaign.won (by omega) (by omega)
    exact ⟨c'', hrun.trans hrun', helected⟩
  · exact exists_election_alone hq hmembers hn hid hconfig hrole hpeers

end Election

omit [StateMachine σ] in
theorem Followed.votes {a : Action} (hsteady : c.Steady a) : c.Followed .votes a where
  steady := hsteady
  whole := fun hk => by cases hk
  safe := fun hk => by cases hk

/-- A step changes one process, the one that acts. -/
theorem step_actor {a : Action} (h : c.step a = some c') (b : NodeId) :
    c'.nodes b = c.nodes b ∨ c.actor a = some b ∧ b ∈ c.members := by
  -- a step changes at most the node that acts
  have hupdate : ∀ m nd, c'.nodes = Function.update c.nodes m nd → c.actor a = some m →
      m ∈ c.members → c'.nodes b = c.nodes b ∨ c.actor a = some b ∧ b ∈ c.members := by
    intro m nd hnodes hactor hmem
    by_cases hb : b = m
    · exact .inr (hb ▸ ⟨hactor, hmem⟩)
    · rw [hnodes, Function.update_of_ne hb]
      exact .inl rfl
  obtain ⟨n, nd, sent, hown, hn, rfl⟩ | ⟨i, call, rfl, hcall, ht, rfl⟩ | ⟨_, call, rfl, -, rfl⟩ |
    ⟨_, call, rfl, -, rfl⟩ | ⟨i, call, rfl, hcall, ht, rfl⟩ | ⟨i, r, rfl, hr, hs, -, rfl⟩ :=
    step_cases h
  · refine hupdate n nd rfl ?_ hn
    cases a with
    | timeout =>
        obtain ⟨-, hown⟩ := Option.ite_none_left_eq_some.mp hown
        exact congrArg some (Prod.mk.inj (Option.some.inj hown)).1
    | deliver | copy | copySilent | redeliver | reply => cases hown
    | _ => exact congrArg some (Prod.mk.inj (Option.some.inj hown)).1
  · exact hupdate _ _ rfl (congrArg (Option.map Call.target) hcall) ht
  · exact .inl rfl
  · exact .inl rfl
  · exact hupdate _ _ rfl (congrArg (Option.map Call.target) hcall) ht
  · exact hupdate _ _ rfl (congrArg (Option.map Reply.sender) hr) hs

/-- A node that is no process stays as it is. -/
theorem nodes_of_not_mem {ok : Cluster σ → Action → Prop} (hrun : Run step ok c c')
    {b : NodeId} (hb : b ∉ c.members) : c'.nodes b = c.nodes b := by
  refine (hrun.invariant (P := fun x => x.members = c.members ∧ x.nodes b = c.nodes b)
    ⟨rfl, rfl⟩ ?_).2
  rintro x a y ⟨hmembers, hnodes⟩ - hstep
  refine ⟨(step_members hstep).trans hmembers, ?_⟩
  rcases step_actor hstep b with hsame | ⟨-, hmem⟩
  · exact hsame.trans hnodes
  · exact absurd (hmembers ▸ hmem) hb

theorem forall_mem_members {ok : Cluster σ → Action → Prop} (hrun : Run step ok c c')
    {q : List NodeId} (h : ∀ m ∈ q, m ∈ c.members) : ∀ m ∈ q, m ∈ c'.members := by
  have hsame : c'.members = c.members :=
    hrun.invariant (P := fun x : Cluster σ => x.members = c.members) rfl
      fun _ _ _ h _ hstep => (step_members hstep).trans h
  exact hsame ▸ h

omit [StateMachine σ] in
/-- The member whose log is most up to date has everybody's vote. -/
theorem exists_upToDate (c : Cluster σ) {q : List NodeId} (hq : 0 < q.length) :
    ∃ n ∈ q, ∀ m ∈ q, (c.nodes m).logOk (c.nodes n).requestVoteReq := by
  obtain ⟨x, hx⟩ := List.exists_mem_of_length_pos hq
  obtain ⟨n, hn, hmax⟩ := exists_max_of_mem hx fun m =>
    (toLex ((c.nodes m).log.lastTerm, (c.nodes m).log.lastIndex) : ℕ ×ₗ ℕ)
  refine ⟨n, hn, fun m hm => ?_⟩
  have hle := hmax m hm
  rw [Prod.Lex.toLex_le_toLex] at hle
  exact hle.imp (fun h => h) fun h => ⟨h.1.symm, h.2⟩

end Cluster

variable [StateMachine σ]

end KvRaft
