import KvRaft.Run
import KvRaft.ThreadEffect

/-!
# KvRaft.SingleVote

The votes a node gives, over any interleaving of its threads and over all its
lives: those it grants to others and those of its own candidacies.

The hard state of the log only moves on (`PersistentLog.Later`): to a higher
term, or from no vote to one.  Every vote the node ever gave was in its hard
state at that moment, so that no other one can be given in the same term
(`single_vote_per_term`), even where `handleRequestVote` lets go of the lock
before it votes.
-/

namespace KvRaft

open Pool

variable {σ : Type}

/-! ## The hard state -/

/-- `L'` has a later hard state than `L`, or the same. -/
def PersistentLog.Later (L L' : PersistentLog) : Prop :=
  L.currentTerm < L'.currentTerm ∨
    L.currentTerm = L'.currentTerm ∧ (L.votedFor = 0 ∨ L'.votedFor = L.votedFor)

namespace PersistentLog.Later

variable {L L' L'' : PersistentLog}

theorem refl (L : PersistentLog) : L.Later L := .inr ⟨rfl, .inr rfl⟩

theorem term_le (h : L.Later L') : L.currentTerm ≤ L'.currentTerm :=
  h.elim Nat.le_of_lt fun h => Nat.le_of_eq h.1

theorem trans (h : L.Later L') (h' : L'.Later L'') : L.Later L'' := by
  rcases h with hlt | ⟨heq, hvote⟩
  · exact .inl (Nat.lt_of_lt_of_le hlt h'.term_le)
  · rcases h' with hlt' | ⟨heq', hvote'⟩
    · exact .inl (heq ▸ hlt')
    · refine .inr ⟨heq.trans heq', ?_⟩
      rcases hvote with hzero | hsame
      · exact .inl hzero
      · exact hvote'.imp (fun hzero => hsame ▸ hzero) fun hsame' => hsame'.trans hsame

/-- A vote stays what it is while its term lasts. -/
theorem votedFor (h : L.Later L') {T : Nat} {v : NodeId} (hv : v ≠ 0) (hT : T ≤ L.currentTerm)
    (hvote : T = L.currentTerm → L.votedFor = v) (hT' : T = L'.currentTerm) : L'.votedFor = v := by
  rcases h with hlt | ⟨heq, hvote'⟩
  · omega
  · have hgiven := hvote (hT'.trans heq.symm)
    exact (hvote'.resolve_left fun hzero => hv (hgiven ▸ hzero)).trans hgiven

end PersistentLog.Later

theorem RaftNode.castVote_later (n : RaftNode σ) (req : RequestVoteReq) :
    n.log.Later (n.castVote req).1.log := by
  unfold castVote
  split
  · next hvote => exact .inr ⟨rfl, hvote.1.imp_right fun h => h.symm⟩
  · exact .refl _

variable [StateMachine σ]

/-- Whatever a stretch does, the hard state moves on. -/
theorem Stretch.run_later (n : RaftNode σ) (k : Stretch) : n.log.Later (k.run n).shared.log := by
  have hmoves := k.moves n
  generalize (k.run n).shared = n' at hmoves
  cases hmoves with
  | stand _ hterm => exact .inl (by omega)
  | follow term leader =>
      unfold RaftNode.becomeFollower
      split
      · next hgt => exact .inl hgt
      · exact .refl _
  | lead => exact .refl _
  | vote req | voteLater req => exact n.castVote_later req
  | keep _ hterm hvote => exact .inr ⟨hterm.symm, .inr hvote⟩

/-! ## Votes -/

/-- The candidate that a stretch may vote for. -/
def Stretch.candidate? : Stretch → Option NodeId
  | .handleRequestVote req _ | .castVote req _ => some req.candidateId
  | _ => none

/-- The term and the candidate of a vote that is granted. -/
def Output.vote? : Output → Option (Nat × NodeId)
  | .answer (.requestVote req _ resp) =>
      if resp.voteGranted then some (resp.term, req.candidateId) else none
  | _ => none

theorem Output.vote?_of_isPlain {o : Output} (h : o.isPlain = true) : o.vote? = none := by
  rcases o with _ | (_ | _ | _) | _ | _
  case answer.requestVote => contradiction
  all_goals rfl

/-- All the votes of a node: those it has granted and those of its own candidacies. -/
def Threads.ballots {σ : Type} (s : Threads σ) : List (Nat × NodeId) :=
  s.out.filterMap Output.vote? ++ s.stood.map fun T => (T, s.node.id)

/-- Requests for a vote name their candidate. -/
def Threads.NamesCandidates {σ : Type} (_ : Threads σ) : Threads.Action → Prop
  | .start (.rpc (.requestVote req _)) => req.candidateId ≠ 0
  | _ => True

instance {σ : Type} (s : Threads σ) (a : Threads.Action) : Decidable (s.NamesCandidates a) := by
  unfold Threads.NamesCandidates
  split <;> infer_instance

namespace Stretch

theorem candidate?_of_isPlain {k : Stretch} (h : k.isPlain = true) (h' : k.isHandler = false) :
    k.candidate? = none := by
  cases k with
  | handleRequestVote | castVote => contradiction
  | _ => rfl

/-- What a stretch asks later stretches to vote for is what it was asked itself. -/
theorem next_candidate {n : RaftNode σ} {k k' : Stretch} (h : k' ∈ (k.run n).next) {v : NodeId}
    (hv : v ∈ k'.candidate?) : v ∈ k.candidate? := by
  cases next_follows h with
  | vote req majority => exact hv
  | plain hplain hhandler =>
      rw [candidate?_of_isPlain hplain hhandler] at hv
      contradiction
  | _ => contradiction

/-- A vote that a stretch grants is in the hard state after it. -/
theorem out_vote {n : RaftNode σ} {k : Stretch} {o : Output} (h : o ∈ (k.run n).out)
    {T : Nat} {v : NodeId} (hv : (T, v) ∈ o.vote?) :
    (k.run n).shared.log.currentTerm = T ∧ (k.run n).shared.log.votedFor = v ∧
      v ∈ k.candidate? := by
  cases out_sends h with
  | vote req majority hk hrun =>
      have hcandidate : k.candidate? = some req.candidateId := by
        rcases hk with rfl | rfl <;> rfl
      rw [hrun, hcandidate]
      unfold RaftNode.castVote at hv ⊢
      split at hv
      · next hvote =>
        rw [if_pos hvote]
        cases hv
        exact ⟨rfl, rfl, rfl⟩
      · cases hv
  | plain hplain =>
      rw [Output.vote?_of_isPlain hplain] at hv
      contradiction
  | _ => cases hv

end Stretch

/-! ## Along a run -/

namespace Threads

variable {s s' : Threads σ}

/-- The votes of the node and its hard state. -/
structure Voting (id : NodeId) (s : Threads σ) : Prop where
  id_eq : s.node.id = id
  synced : s.node.log.Synced
  asked : Every (fun k => ∀ v ∈ k.candidate?, v ≠ 0) s.threads
  recorded : ∀ b ∈ s.ballots, b.2 ≠ 0 ∧ b.1 ≤ s.node.log.currentTerm ∧
    (b.1 = s.node.log.currentTerm → s.node.log.votedFor = b.2)
  unique : ∀ b ∈ s.ballots, ∀ b' ∈ s.ballots, b.1 = b'.1 → b.2 = b'.2

namespace Voting

variable {id : NodeId}

theorem init (id : NodeId) (threshold : Nat) (config : ClusterConfig) :
    Voting id (.init id threshold config : Threads σ) :=
  ⟨rfl, rfl, .nil, nofun, nofun⟩

omit [StateMachine σ] in
/-- The votes of a later state are those of an earlier one and the vote in the
hard state. -/
theorem of_ballots (h : Voting id s) (hid : s'.node.id = id) (hsynced : s'.node.log.Synced)
    (hasked : Every (fun k => ∀ v ∈ k.candidate?, v ≠ 0) s'.threads)
    (hlater : s.node.log.Later s'.node.log)
    (hballots : ∀ b ∈ s'.ballots, b ∈ s.ballots ∨
      b.2 ≠ 0 ∧ b = (s'.node.log.currentTerm, s'.node.log.votedFor)) : Voting id s' := by
  have hrecorded : ∀ b ∈ s'.ballots, b.2 ≠ 0 ∧ b.1 ≤ s'.node.log.currentTerm ∧
      (b.1 = s'.node.log.currentTerm → s'.node.log.votedFor = b.2) := fun b hb => by
    rcases hballots b hb with hold | ⟨hne, rfl⟩
    · obtain ⟨hne, hle, hvote⟩ := h.recorded b hold
      exact ⟨hne, hle.trans hlater.term_le, hlater.votedFor hne hle hvote⟩
    · exact ⟨hne, Nat.le_refl _, fun _ => rfl⟩
  refine ⟨hid, hsynced, hasked, hrecorded, fun b hb b' hb' hterm => ?_⟩
  rcases hballots b hb with hold | ⟨-, rfl⟩
  · rcases hballots b' hb' with hold' | ⟨-, rfl⟩
    · exact h.unique b hold b' hold' hterm
    · exact ((hrecorded b hb).2.2 hterm).symm
  · exact (hrecorded b' hb').2.2 hterm.symm

/-- The votes after a stretch. -/
theorem ballots_ran (h : Voting id s) (hne : id ≠ 0) {i : Nat} {k : Stretch} {ks : List Stretch}
    (hi : s.threads[i]? = some (k :: ks)) : ∀ b ∈ (s.ran i k ks).ballots, b ∈ s.ballots ∨
      b.2 ≠ 0 ∧ b = ((s.ran i k ks).node.log.currentTerm, (s.ran i k ks).node.log.votedFor) := by
  have hid : (s.ran i k ks).node.id = s.node.id := k.run_id s.node s.toHistory
  rintro ⟨T, v⟩ hb
  rcases List.mem_append.mp hb with hb | hb
  · obtain ⟨o, ho, hv⟩ := List.mem_filterMap.mp hb
    rcases List.mem_append.mp ho with ho | ho
    · exact .inl (List.mem_append_left _ (List.mem_filterMap.mpr ⟨o, ho, hv⟩))
    · -- a vote granted here is written to the log before it is answered
      obtain ⟨hterm, hvoted, hcandidate⟩ := Stretch.out_vote ho hv
      refine .inr ⟨h.asked.head hi v hcandidate, ?_⟩
      rw [← hterm, ← hvoted]
      rfl
  · rw [hid] at hb
    by_cases hk : k = .becomeCandidate
    · -- standing: the ballot is the node's own
      subst hk
      obtain ⟨votes, hrun⟩ := Stretch.run_becomeCandidate s.node
      have hnode : (s.ran i .becomeCandidate ks).node = { s.node.stand with votes } := hrun
      rw [hnode]
      change (T, v) ∈ List.map _ (s.stood ++ [s.node.log.currentTerm + 1]) at hb
      rw [List.map_append, List.mem_append] at hb
      rcases hb with hb | hb
      · exact .inl (List.mem_append_right _ hb)
      · obtain ⟨rfl, rfl⟩ := Prod.mk.inj (List.mem_singleton.mp hb)
        exact .inr ⟨h.id_eq ▸ hne, rfl⟩
    · -- no other section stands
      have hstood : (s.ran i k ks).stood = s.stood := by
        change (s.toHistory.after s.node k).stood = s.stood
        unfold History.after
        split <;> first | contradiction | rfl | (split <;> rfl)
      rw [hstood] at hb
      exact .inl (List.mem_append_right _ hb)

theorem step (h : Voting id s) (hne : id ≠ 0) {a : Action} (hok : s.NamesCandidates a)
    (hstep : s.step a = some s') : Voting id s' := by
  obtain ⟨entry, rfl, rfl⟩ | ⟨i, k, ks, rfl, hi, rfl⟩ | ⟨-, rfl⟩ := step_cases hstep
  · refine { h with asked := h.asked.append fun v hv => ?_ }
    rcases entry with _ | _ | _ | (_ | _ | _) | ⟨_, _ | _ | _⟩ | _ | _ | _ | _ | _
    case rpc.requestVote req majority => exact Option.some.inj hv ▸ hok
    all_goals contradiction
  · refine h.of_ballots ((k.run_id s.node s.toHistory).trans h.id_eq)
      (Stretch.run_synced h.synced s.toHistory k) (h.asked.set hi fun k' hk' v hv => ?_)
      (Stretch.run_later s.node k) (h.ballots_ran hne hi)
    exact h.asked.head hi v (Stretch.next_candidate hk' hv)
  · have hlog : s.node.restart.log = s.node.log := h.synced
    exact h.of_ballots h.id_eq (hlog ▸ h.synced) .nil (hlog ▸ .refl _) fun b hb => .inl hb

theorem of_run (hne : id ≠ 0) {threshold : Nat} {config : ClusterConfig}
    (hrun : Run Threads.step NamesCandidates (.init id threshold config) s) : Voting id s :=
  hrun.invariant (init id threshold config) fun _ _ _ h hok hstep => h.step hne hok hstep

/-- The hard state moves on, over restarts as well. -/
theorem later (h : Voting id s) (hne : id ≠ 0) (hrun : Run Threads.step NamesCandidates s s') :
    Voting id s' ∧ s.node.log.Later s'.node.log := by
  refine hrun.invariant (P := fun s' => Voting id s' ∧ s.node.log.Later s'.node.log)
    ⟨h, .refl _⟩ fun t a u ht hok hstep => ⟨ht.1.step hne hok hstep, ht.2.trans ?_⟩
  obtain ⟨entry, -, rfl⟩ | ⟨i, k, ks, -, -, rfl⟩ | ⟨-, rfl⟩ := step_cases hstep
  · exact .refl _
  · exact Stretch.run_later t.node k
  · have hlog : t.node.restart.log = t.node.log := ht.1.synced
    exact hlog ▸ .refl _

end Voting

end Threads

/-- **Single vote per term, durably**: over any interleaving of a node's threads
and any restarts, the term in its files never decreases and the vote in them
changes only from none while the term lasts; the node never grants its vote to
two candidates in one term, nor to another one in a term in which it was a
candidate itself. -/
theorem single_vote_per_term {id : NodeId} (hid : id ≠ 0) {threshold : Nat} {config : ClusterConfig}
    {s t : Threads σ}
    (hrun : Run Threads.step Threads.NamesCandidates (.init id threshold config) s)
    (hrun' : Run Threads.step Threads.NamesCandidates s t) :
    (PersistentLog.load s.node.log.dir).Later (PersistentLog.load t.node.log.dir) ∧
      (∀ req majority resp req' majority' resp',
        .answer (.requestVote req majority resp) ∈ t.out →
        .answer (.requestVote req' majority' resp') ∈ t.out →
        resp.voteGranted = true → resp'.voteGranted = true → resp.term = resp'.term →
        req.candidateId = req'.candidateId) ∧
      ∀ req majority resp, .answer (.requestVote req majority resp) ∈ t.out →
        resp.voteGranted = true → resp.term ∈ t.stood → req.candidateId = id := by
  have hs := Threads.Voting.of_run hid hrun
  obtain ⟨ht, hlater⟩ := hs.later hid hrun'
  -- an answer that grants a vote is a ballot of its term
  have hballot : ∀ req majority resp, .answer (.requestVote req majority resp) ∈ t.out →
      resp.voteGranted = true → (resp.term, req.candidateId) ∈ t.ballots :=
    fun req majority resp hmem hgranted =>
      List.mem_append_left _ (List.mem_filterMap.mpr ⟨_, hmem, if_pos hgranted⟩)
  refine ⟨?_, fun req majority resp req' majority' resp' hmem hmem' hg hg' hterm => ?_,
    fun req majority resp hmem hg hstood => ?_⟩
  · have hload : ∀ n : RaftNode σ, n.log.Synced → PersistentLog.load n.log.dir = n.log :=
      fun _ h => h
    rw [hload _ hs.synced, hload _ ht.synced]
    exact hlater
  · exact ht.unique _ (hballot req majority resp hmem hg) _ (hballot req' majority' resp' hmem' hg')
      hterm
  · -- standing for a term is a ballot for oneself
    have hown : (resp.term, id) ∈ t.ballots :=
      List.mem_append_right _ (List.mem_map.mpr ⟨resp.term, hstood, by rw [ht.id_eq]⟩)
    exact ht.unique _ (hballot req majority resp hmem hg) _ hown rfl

open Threads.Action (start run restart)

/-- Node 1 votes for node 2 in term 1, crashes, and refuses its vote to node 3. -/
def votedOnce : Threads KvStore :=
  replay Threads.step firstOfThree
    ([start (.rpc (.requestVote ⟨1, 2, 0, 0⟩ 2))] ++ Threads.runs 0 3 ++
      [restart, start (.rpc (.requestVote ⟨1, 3, 0, 0⟩ 2)), run 0])

theorem single_vote_per_term_of_votedOnce :
    votedOnce.out = [.answer (.requestVote ⟨1, 2, 0, 0⟩ 2 ⟨1, true⟩),
        .answer (.requestVote ⟨1, 3, 0, 0⟩ 2 ⟨1, false⟩)] ∧
      (PersistentLog.load firstOfThree.node.log.dir).Later
        (PersistentLog.load votedOnce.node.log.dir) := by
  have hrun : Run Threads.step Threads.NamesCandidates firstOfThree votedOnce :=
    run_replay (by decide +kernel)
  exact ⟨by decide +kernel, (single_vote_per_term (by decide) (.refl _) hrun).1⟩

end KvRaft
