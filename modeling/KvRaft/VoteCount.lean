import KvRaft.Aligned
import Mathlib.Data.List.Dedup
import Mathlib.Data.List.Perm.Basic

/-!
# KvRaft.VoteCount

The vote counter of a candidacy against the voters that gave it their vote.  A
voter that is asked twice grants its vote twice, and the callback counts every
grant it gets.

* `votes_per_voter` — the counter does not exceed the number of distinct voters
  whose vote was recorded, if no request for a vote is copied together with its
  answer and the candidate's configuration lists each voter once
  (`Cluster.AsksOnce`);
* `copied_vote_counts` — a copied request is counted twice, and a minority
  elects a leader.
-/

namespace KvRaft

variable {σ : Type}

/-! ## The counters of a node -/

namespace RaftNode

variable [StateMachine σ] (n : RaftNode σ)

@[simp] theorem applyCommittedEntries_votes : n.applyCommittedEntries.votes = n.votes := by
  obtain ⟨_, _, _, _, _, _, h, -⟩ := n.applyCommittedEntries_eq
  rw [h]

@[simp] theorem tryAdvanceCommitIndex_votes : n.tryAdvanceCommitIndex.votes = n.votes := by
  obtain h | ⟨i, -, -, -, h⟩ := n.tryAdvanceCommitIndex_cases
  · rw [h]
  · rw [h, applyCommittedEntries_votes]

@[simp] theorem propose_votes (commandBytes : Bytes) (type : EntryType) :
    (n.propose commandBytes type).1.votes = n.votes := by
  obtain h | ⟨-, h⟩ := n.propose_cases commandBytes type
  · rw [h]
  · rw [h, tryAdvanceCommitIndex_votes]

@[simp] theorem becomeLeader_votes : n.becomeLeader.1.votes = n.votes := by
  by_cases h : n.role = .candidate
  · rw [becomeLeader_fst h, tryAdvanceCommitIndex_votes, propose_votes]
    rfl
  · rw [becomeLeader_of_ne h]

@[simp] theorem forceSnapshot_votes : n.forceSnapshot.votes = n.votes := by
  rcases n.forceSnapshot_cases with h | h <;> rw [h]

@[simp] theorem maybeSnapshot_votes : n.maybeSnapshot.votes = n.votes := by
  rcases n.maybeSnapshot_cases with h | h
  · rw [h]
  · rw [h, forceSnapshot_votes]

omit [StateMachine σ] in
@[simp] theorem castVote_votes (req : RequestVoteReq) : (n.castVote req).1.votes = n.votes := by
  unfold castVote
  split <;> rfl

@[simp] theorem handle_votes (rpc : Rpc) : (n.handle rpc).1.votes = n.votes := by
  have hhandles := n.handles_handle rpc
  generalize (n.handle rpc).1 = n' at hhandles
  cases hhandles with
  | refuse | reject | covered | install => rfl
  | vote => rw [castVote_votes]
  | voteLater =>
      rw [castVote_votes]
      rfl
  | accept =>
      rw [applyCommittedEntries_votes]
      rfl

omit [StateMachine σ] in
/-- A vote that is granted is recorded, in the term of the request. -/
theorem handleRequestVote_granted {req : RequestVoteReq}
    (h : (n.handleRequestVote req).2.voteGranted = true) :
    (n.handleRequestVote req).1.log.currentTerm = req.term ∧
      (n.handleRequestVote req).1.log.votedFor = req.candidateId := by
  -- a granted vote is written down in the term at which the request arrives
  have hcast : ∀ nd : RaftNode σ, nd.log.currentTerm = req.term →
      (nd.castVote req).2.voteGranted = true →
      (nd.castVote req).1.log.currentTerm = req.term ∧
        (nd.castVote req).1.log.votedFor = req.candidateId := fun nd hterm hgranted => by
    unfold castVote at hgranted ⊢
    split at hgranted
    · next hvote =>
      rw [if_pos hvote]
      exact ⟨hterm, rfl⟩
    · contradiction
  unfold handleRequestVote at h ⊢
  split at h
  · contradiction
  · next hle =>
    rw [if_neg hle]
    refine hcast _ ?_ h
    -- the term is that of the request, whether it was adopted or there already
    split
    · next hgt =>
      unfold becomeFollower
      rw [if_pos hgt]
      rfl
    · omega

/-- A callback counts at most one vote, and only one that was granted. -/
theorem callback_votes_le (peer : NodeId) (ans : Answer) (T : Nat) :
    (n.callback peer ans).1.votes T = n.votes T ∨
      (n.callback peer ans).1.votes T = n.votes T + 1 ∧
        ∃ req majority resp, ans = .requestVote req majority resp ∧ req.term = T ∧
          n.log.currentTerm = T ∧ resp.voteGranted = true := by
  have hcalls := n.callsBack_callback peer ans
  generalize (n.callback peer ans).1 = n', (n.callback peer ans).2 = sent at hcalls
  -- a counted vote is one of the term it was given in
  have hcount : ∀ req majority resp, n.log.currentTerm = req.term → resp.voteGranted = true →
      (n.countVote req.term).votes T = n.votes T ∨ (n.countVote req.term).votes T = n.votes T + 1 ∧
        ∃ req' majority' resp', Answer.requestVote req majority resp =
          .requestVote req' majority' resp' ∧ req'.term = T ∧ n.log.currentTerm = T ∧
          resp'.voteGranted = true := fun req majority resp hterm hgranted => by
    by_cases hT : T = req.term
    · subst hT
      exact .inr ⟨Function.update_self _ _ _, req, majority, resp, rfl, rfl, hterm, hgranted⟩
    · exact .inl (Function.update_of_ne hT _ _)
  cases hcalls with
  | ignore | follow | track => exact .inl rfl
  | count req majority resp _ hterm hgranted => exact hcount req majority resp hterm hgranted
  | win req majority resp _ hterm hgranted =>
      rw [becomeLeader_votes]
      exact hcount req majority resp hterm hgranted
  | advance => exact .inl (by rw [tryAdvanceCommitIndex_votes])

/-- A candidacy starts to count its own vote, which is recorded in a new term. -/
theorem becomeCandidate_votes (T : Nat) :
    (n.becomeCandidate.1.votes T = n.votes T ∨
      n.becomeCandidate.1.votes T = 1 ∧ T = n.log.currentTerm + 1) ∧
      n.becomeCandidate.1.log.currentTerm = n.log.currentTerm + 1 ∧
      n.becomeCandidate.1.log.votedFor = n.id := by
  -- the candidate's own vote is the first of its term
  have hcount : n.candidacy.votes T = n.votes T ∨
      n.candidacy.votes T = 1 ∧ T = n.log.currentTerm + 1 := by
    by_cases hT : T = n.log.currentTerm + 1
    · subst hT
      exact .inr ⟨Function.update_self _ _ _, rfl⟩
    · exact .inl (Function.update_of_ne hT _ _)
  have hstands := n.stands_becomeCandidate
  generalize n.becomeCandidate.1 = n', n.becomeCandidate.2 = sent at hstands
  cases hstands with
  | outside => exact ⟨.inl rfl, rfl, rfl⟩
  | alone =>
      have hcandidate : n.candidacy.role = .candidate := rfl
      rw [becomeLeader_votes, becomeLeader_log hcandidate, PersistentLog.appendAndSync_currentTerm,
        PersistentLog.appendAndSync_votedFor]
      exact ⟨hcount, rfl, rfl⟩
  | ask => exact ⟨hcount, rfl, rfl⟩

end RaftNode

/-! ## Whose answers a candidacy waits for -/

/-- The voter that the call asks for its vote for `n` in term `T`. -/
def Call.voter? (n : NodeId) (T : Nat) (call : Call) : Option NodeId :=
  match call.rpc with
  | .requestVote req _ => if call.sender = n ∧ req.term = T then some call.target else none
  | _ => none

/-- The voter that answers with the reply. -/
def Reply.voter? (n : NodeId) (T : Nat) (r : Reply) : Option NodeId :=
  match r.answer with
  | .requestVote req _ _ => if r.sender = n ∧ req.term = T then some r.target else none
  | _ => none

theorem Call.voter?_of_not_isVote {call : Call} (h : call.isVote = false) (n : NodeId) (T : Nat) :
    call.voter? n T = none := by
  unfold isVote at h
  unfold voter?
  cases hrpc : call.rpc with
  | requestVote => rw [hrpc] at h; contradiction
  | _ => rfl

namespace RaftNode

variable [StateMachine σ] (n : RaftNode σ)

theorem broadcastAppendEntries_isVote {call : Call} (h : call ∈ n.broadcastAppendEntries) :
    call.isVote = false := by
  obtain ⟨-, peer, rfl⟩ := of_mem_broadcast h
  unfold Call.isVote replicateTo
  simp only
  split
  · next hrpc => split at hrpc <;> contradiction
  · rfl

/-- Nobody is asked for a vote. -/
theorem filterMap_voter?_eq_nil {sent : List Call}
    (h : ∀ call ∈ sent, call ∈ n.broadcastAppendEntries)
    (m : NodeId) (T : Nat) : sent.filterMap (Call.voter? m T) = [] :=
  List.filterMap_eq_nil_iff.mpr fun call hcall =>
    Call.voter?_of_not_isVote (n.broadcastAppendEntries_isVote (h call hcall)) m T

/-- A candidate asks the voters of its configuration, in its new term. -/
theorem becomeCandidate_asks (m : NodeId) (T : Nat) :
    n.becomeCandidate.2.filterMap (Call.voter? m T) = [] ∨
      m = n.id ∧ T = n.log.currentTerm + 1 ∧
        n.becomeCandidate.2.filterMap (Call.voter? m T) = n.config.voters.filter (· ≠ n.id) := by
  have hstands := n.stands_becomeCandidate
  generalize n.becomeCandidate.1 = n', n.becomeCandidate.2 = sent at hstands
  cases hstands with
  | outside => exact .inl rfl
  | alone => exact .inl (filterMap_voter?_eq_nil _ (becomeLeader_sent _) m T)
  | ask =>
      -- only the candidate asks, only in its new term, and every voter but itself once
      by_cases hm : n.id = m ∧ n.log.currentTerm + 1 = T
      · obtain ⟨rfl, rfl⟩ := hm
        refine .inr ⟨rfl, rfl, ?_⟩
        rw [List.filterMap_map]
        have hvoter : ∀ peer, Call.voter? n.id (n.log.currentTerm + 1)
            ⟨n.id, peer, n.incarnation, .requestVote n.stand.requestVoteReq n.majority⟩
            = some peer := fun peer => if_pos ⟨rfl, rfl⟩
        refine (List.filterMap_congr fun peer _ => hvoter peer).trans ?_
        exact List.filterMap_some
      · refine .inl (List.filterMap_eq_nil_iff.mpr fun call hcall => ?_)
        obtain ⟨peer, -, rfl⟩ := List.mem_map.mp hcall
        exact if_neg hm

/-- The requests of a candidate carry its id and its new term. -/
theorem becomeCandidate_request {call : Call} {req : RequestVoteReq} {majority : Nat}
    (h : call ∈ n.becomeCandidate.2) (hreq : call.rpc = .requestVote req majority) :
    call.sender = n.id ∧ req.candidateId = n.id ∧ req.term = n.log.currentTerm + 1 := by
  have hstands := n.stands_becomeCandidate
  generalize n.becomeCandidate.1 = n', n.becomeCandidate.2 = sent at h hstands
  cases hstands with
  | outside => exact absurd h List.not_mem_nil
  | alone =>
      have hvote := broadcastAppendEntries_isVote _ (becomeLeader_sent _ call h)
      rw [Call.isVote, hreq] at hvote
      cases hvote
  | ask =>
      obtain ⟨peer, -, rfl⟩ := List.mem_map.mp h
      cases hreq
      exact ⟨rfl, rfl, rfl⟩

end RaftNode

namespace Cluster

/-- The voters whose answer to `n` in term `T` is on its way, or the request
for it. -/
def awaited (c : Cluster σ) (n : NodeId) (T : Nat) : List NodeId :=
  c.calls.filterMap (Call.voter? n T) ++ c.replies.filterMap (Reply.voter? n T)

theorem awaited_put (c : Cluster σ) (b : NodeId) (nd : RaftNode σ) {sent : List Call} {n : NodeId}
    {T : Nat} (h : sent.filterMap (Call.voter? n T) = []) :
    (c.put b nd sent).awaited n T = c.awaited n T := by
  simp only [awaited, put, List.filterMap_append, h, List.append_nil]

theorem awaited_copyCall (c : Cluster σ) {call : Call} (h : call.isVote = false) (n : NodeId)
    (T : Nat) :
    (c.copyCall call).awaited n T = c.awaited n T := by
  simp only [awaited, copyCall, List.filterMap_append, List.filterMap_cons,
    Call.voter?_of_not_isVote h, List.filterMap_nil, List.append_nil]

/-- A reply that reached its callback is not awaited any more. -/
theorem awaited_reply (c : Cluster σ) {i : Nat} {r : Reply} (hi : c.replies[i]? = some r)
    (b : NodeId)
    (nd : RaftNode σ) {sent : List Call} {n : NodeId} {T : Nat}
    (h : sent.filterMap (Call.voter? n T) = []) :
    (c.awaited n T).Perm ((r.voter? n T).toList ++
      { c.put b nd sent with replies := c.replies.eraseIdx i }.awaited n T) := by
  obtain ⟨hlt, rfl⟩ := List.getElem?_eq_some_iff.mp hi
  set r := c.replies[i] with hr
  have hreplies : (c.replies.filterMap (Reply.voter? n T)).Perm
      ((r :: c.replies.eraseIdx i).filterMap (Reply.voter? n T)) :=
    (List.getElem_cons_eraseIdx_perm hlt).symm.filterMap _
  have hold : (c.awaited n T).Perm (c.calls.filterMap (Call.voter? n T) ++
      (r :: c.replies.eraseIdx i).filterMap (Reply.voter? n T)) := hreplies.append_left _
  refine hold.trans ?_
  simp only [awaited, put, List.filterMap_append, h, List.append_nil, List.filterMap_cons]
  cases r.voter? n T with
  | none => exact .refl _
  | some v => exact List.perm_middle

variable [StateMachine σ]

/-- A request that was delivered waits as a reply. -/
theorem awaited_receive (c : Cluster σ) {i : Nat} {call : Call} (hi : c.calls[i]? = some call)
    (n : NodeId) (T : Nat) :
    ((c.receive call (c.calls.eraseIdx i)).awaited n T).Perm (c.awaited n T) := by
  obtain ⟨hlt, rfl⟩ := List.getElem?_eq_some_iff.mp hi
  set call := c.calls[i] with hcall
  -- the answer stands for the same voter as the request
  have hsame : Reply.voter? n T
      ⟨call.sender, call.target, call.incarnation, ((c.nodes call.target).handle call.rpc).2⟩
      = call.voter? n T := by
    unfold Reply.voter? Call.voter?
    cases call.rpc <;> rfl
  have hcalls : (c.calls.filterMap (Call.voter? n T)).Perm
      ((call :: c.calls.eraseIdx i).filterMap (Call.voter? n T)) :=
    (List.getElem_cons_eraseIdx_perm hlt).symm.filterMap _
  have hold : (c.awaited n T).Perm
      ((call :: c.calls.eraseIdx i).filterMap (Call.voter? n T) ++
        c.replies.filterMap (Reply.voter? n T)) := hcalls.append_right _
  refine List.Perm.trans ?_ hold.symm
  change ((c.calls.eraseIdx i).filterMap (Call.voter? n T) ++
    (c.replies ++ [Reply.mk call.sender call.target call.incarnation
      ((c.nodes call.target).handle call.rpc).2]).filterMap (Reply.voter? n T)).Perm _
  rw [List.filterMap_append, List.filterMap_cons, List.filterMap_nil, hsame, List.filterMap_cons]
  -- a voter moves from the calls to the replies
  cases call.voter? n T with
  | none => simp
  | some v =>
      rw [← List.append_assoc, List.cons_append]
      exact List.perm_append_singleton v _

end Cluster

/-! ## Along a run -/

/-- `v` has recorded its vote for `n` in term `T` at some point of the run. -/
def Granted (trace : List (Taken (Cluster σ) Action)) (n : NodeId) (T : Nat) (v : NodeId) : Prop :=
  ∃ x ∈ trace, (x.after.nodes v).log.currentTerm = T ∧ (x.after.nodes v).log.votedFor = n

instance (trace : List (Taken (Cluster σ) Action)) (n : NodeId) (T : Nat) (v : NodeId) :
    Decidable (Granted trace n T v) := inferInstanceAs (Decidable (∃ x ∈ trace, _))

theorem Granted.append {trace : List (Taken (Cluster σ) Action)} {n : NodeId} {T : Nat} {v : NodeId}
    (h : Granted trace n T v) (rest : List (Taken (Cluster σ) Action)) :
    Granted (trace ++ rest) n T v := by
  obtain ⟨x, hx, hvote⟩ := h
  exact ⟨x, List.mem_append_left rest hx, hvote⟩

namespace Cluster

/-- No request for a vote is copied together with its answer, and whoever
stands for election knows a configuration that lists each voter once. -/
def AsksOnce (c : Cluster σ) (a : Action) : Prop :=
  c.VotesOnce a ∧ match a with
    | .timeout n => (c.nodes n).config.voters.Nodup
    | _ => True

instance (c : Cluster σ) (a : Action) : Decidable (c.AsksOnce a) := by
  rcases a with _ | _
  case timeout => exact inferInstanceAs (Decidable (_ ∧ List.Nodup _))
  all_goals exact inferInstanceAs (Decidable (_ ∧ True))

/-- The votes of a candidacy: `counted` are the voters that were counted next
to the candidate itself. -/
structure CountsVotes (trace : List (Taken (Cluster σ) Action)) (c : Cluster σ) (n : NodeId)
    (T : Nat)
    (voters counted : List NodeId) : Prop where
  term_le : T ≤ (c.nodes n).log.currentTerm
  own : Granted trace n T n
  nodup : (c.awaited n T ++ counted).Nodup
  asked : ∀ v ∈ c.awaited n T ++ counted, v ≠ n ∧ v ∈ voters
  granted : ∀ v ∈ counted, Granted trace n T v
  votes : (c.nodes n).votes T ≤ counted.length + 1

namespace CountsVotes

variable {trace : List (Taken (Cluster σ) Action)} {c c' : Cluster σ} {n : NodeId} {T : Nat}
  {voters counted : List NodeId}

/-- A step that counts nothing. -/
theorem keep (h : CountsVotes trace c n T voters counted) (rest : List (Taken (Cluster σ) Action))
    (hterm : (c.nodes n).log.currentTerm ≤ (c'.nodes n).log.currentTerm)
    (hawaited : (c'.awaited n T).Perm (c.awaited n T))
    (hvotes : (c'.nodes n).votes T ≤ (c.nodes n).votes T) :
    CountsVotes (trace ++ rest) c' n T voters counted where
  term_le := h.term_le.trans hterm
  own := h.own.append rest
  nodup := ((hawaited.append_right counted).nodup_iff).mpr h.nodup
  asked v hv := h.asked v ((hawaited.append_right counted).subset hv)
  granted v hv := (h.granted v hv).append rest
  votes := hvotes.trans h.votes

/-- The answer of a voter arrives, and is counted or not. -/
theorem answer (h : CountsVotes trace c n T voters counted) (rest : List (Taken (Cluster σ) Action))
    (hterm : (c.nodes n).log.currentTerm ≤ (c'.nodes n).log.currentTerm) {v : NodeId}
    (hawaited : (c.awaited n T).Perm (v :: c'.awaited n T))
    (hvotes : (c'.nodes n).votes T = (c.nodes n).votes T ∨
      (c'.nodes n).votes T = (c.nodes n).votes T + 1 ∧ Granted trace n T v) :
    ∃ counted', CountsVotes (trace ++ rest) c' n T voters counted' := by
  have hnodup := ((hawaited.append_right counted).nodup_iff).mp h.nodup
  have hasked : ∀ x ∈ v :: (c'.awaited n T ++ counted), x ≠ n ∧ x ∈ voters := fun x hx =>
    h.asked x ((hawaited.append_right counted).symm.subset hx)
  -- the answer is dropped or counted; either way it is not awaited any more
  rcases hvotes with hvotes | ⟨hvotes, hgranted⟩
  · refine ⟨counted, h.term_le.trans hterm, h.own.append rest, (List.nodup_cons.mp hnodup).2,
      fun x hx => hasked x (List.mem_cons_of_mem v hx),
        fun x hx => (h.granted x hx).append rest, ?_⟩
    rw [hvotes]
    exact h.votes
  · -- the voter moves from those awaited to those counted
    have hmiddle : (c'.awaited n T ++ v :: counted).Perm (v :: (c'.awaited n T ++ counted)) :=
      List.perm_middle
    refine ⟨v :: counted, h.term_le.trans hterm, h.own.append rest, hmiddle.nodup_iff.mpr hnodup,
      fun x hx => hasked x (hmiddle.subset hx), fun x hx => ?_, ?_⟩
    · rcases List.mem_cons.mp hx with rfl | hx
      · exact hgranted.append rest
      · exact (h.granted x hx).append rest
    · rw [hvotes, List.length_cons]
      exact Nat.succ_le_succ h.votes

/-- What it says about the counter. -/
theorem votes_le (h : CountsVotes trace c n T voters counted) :
    (c.nodes n).votes T ≤ (n :: voters).dedup.countP fun v => Granted trace n T v := by
  have hnodup : (n :: counted).Nodup := List.nodup_cons.mpr
    ⟨fun hn => (h.asked n (List.mem_append_right _ hn)).1 rfl, (List.nodup_append.mp h.nodup).2.1⟩
  have hsub : n :: counted ⊆ (n :: voters).dedup.filter fun v => Granted trace n T v := by
    intro v hv
    rw [List.mem_filter, List.mem_dedup, List.mem_cons, decide_eq_true_eq]
    rcases List.mem_cons.mp hv with rfl | hv
    · exact ⟨.inl rfl, h.own⟩
    · exact ⟨.inr (h.asked v (List.mem_append_right _ hv)).2, h.granted v hv⟩
  have hlen := (hnodup.subperm hsub).length_le
  rw [List.length_cons, ← List.countP_eq_length_filter] at hlen
  exact h.votes.trans hlen

end CountsVotes

/-- The votes of all candidacies of the run. -/
structure VotesCounted (trace : List (Taken (Cluster σ) Action)) (c : Cluster σ) : Prop where
  id : ∀ n, (c.nodes n).id = n
  synced : ∀ n, (c.nodes n).log.Synced
  unused : ∀ n T, (c.nodes n).log.currentTerm < T → (c.nodes n).votes T = 0
  asked : ∀ call ∈ c.calls, ∀ req majority, call.rpc = .requestVote req majority →
    req.candidateId = call.sender ∧ req.term ≤ (c.nodes call.sender).log.currentTerm
  answered : ∀ r ∈ c.replies, ∀ req majority resp, r.answer = .requestVote req majority resp →
    req.term ≤ (c.nodes r.sender).log.currentTerm ∧
      (resp.voteGranted = true → Granted trace r.sender req.term r.target)
  counted : ∀ x ∈ trace, ∀ n, x.action = .timeout n →
    ∃ counted, CountsVotes trace c n ((x.before.nodes n).log.currentTerm + 1)
      (x.before.nodes n).config.voters counted

variable [StateMachine σ]

/-- What a step keeps of a node whose files are up to date. -/
theorem step_ages {c c' : Cluster σ} {a : Action} {b : NodeId} (hsynced : (c.nodes b).log.Synced)
    (h : c.step a = some c') : (c'.nodes b).id = (c.nodes b).id ∧
      (c.nodes b).log.currentTerm ≤ (c'.nodes b).log.currentTerm ∧ (c'.nodes b).log.Synced := by
  refine ⟨step_id h b, ?_⟩
  rcases step_effects h b with ⟨-, hrestart⟩ | heffects
  · have hlog : (c.nodes b).restart.log = (c.nodes b).log := hsynced
    rw [hrestart, hlog]
    exact ⟨Nat.le_refl _, hsynced⟩
  · refine heffects.invariant (P := fun nd => (c.nodes b).log.currentTerm ≤ nd.log.currentTerm ∧
      nd.log.Synced) ⟨Nat.le_refl _, hsynced⟩ fun x y hx he => ?_
    exact ⟨hx.1.trans he.term_le, he.synced hx.2⟩

/-- What a node does on its own, other than standing for election, counts no
vote and asks for none. -/
theorem ownStep_votes {c : Cluster σ} {a : Action} {b : NodeId} {nd : RaftNode σ} {sent : List Call}
    (h : c.ownStep a = some (b, nd, sent)) (ha : ∀ n, a ≠ .timeout n) :
    (∀ T, nd.votes T ≤ (c.nodes b).votes T) ∧ ∀ call ∈ sent, call ∈ nd.broadcastAppendEntries := by
  obtain ⟨-, rfl, rfl⟩ | ⟨htimeout, -⟩ | ⟨rfl, rfl⟩ | ⟨data, type, rfl, rfl⟩ | ⟨rfl, rfl⟩ |
    ⟨rfl, rfl⟩ := ownStep_cases h
  · exact ⟨fun _ => Nat.zero_le _, nofun⟩
  · exact absurd htimeout (ha b)
  · exact ⟨fun _ => Nat.le_refl _, fun _ hcall => hcall⟩
  · exact ⟨fun T => Nat.le_of_eq (congrFun (RaftNode.propose_votes _ data type) T), nofun⟩
  · exact ⟨fun T => Nat.le_of_eq (congrFun (RaftNode.forceSnapshot_votes _) T), nofun⟩
  · exact ⟨fun T => Nat.le_of_eq (congrFun (RaftNode.maybeSnapshot_votes _) T), nofun⟩

namespace VotesCounted

variable {trace : List (Taken (Cluster σ) Action)} {c c' : Cluster σ} {a : Action}

theorem init (S : Setup) : VotesCounted [] (S.start : Cluster σ) where
  id _ := rfl
  synced _ := rfl
  unused _ _ _ := rfl
  asked _ h := by cases h
  answered _ h := by cases h
  counted _ h := by cases h

/-- A step, by what it adds to the calls, the replies and the candidacies. -/
theorem next (h : VotesCounted trace c) (hstep : c.step a = some c')
    (hunused : ∀ n T, (c'.nodes n).log.currentTerm < T → (c.nodes n).votes T = 0 →
      (c'.nodes n).votes T = 0)
    (hasked : ∀ call ∈ c'.calls, ∀ req majority, call.rpc = .requestVote req majority →
      call ∈ c.calls ∨ req.candidateId = call.sender ∧
        req.term ≤ (c'.nodes call.sender).log.currentTerm)
    (hanswered : ∀ r ∈ c'.replies, r ∈ c.replies ∨
      ∀ req majority resp, r.answer = .requestVote req majority resp →
        req.term ≤ (c.nodes r.sender).log.currentTerm ∧
          (resp.voteGranted = true → Granted (trace ++ [⟨c, a, c'⟩]) r.sender req.term r.target))
    (hold : ∀ n T voters counted, CountsVotes trace c n T voters counted →
      ∃ counted', CountsVotes (trace ++ [⟨c, a, c'⟩]) c' n T voters counted')
    (hnew : ∀ n, a = .timeout n → ∃ counted, CountsVotes (trace ++ [⟨c, a, c'⟩]) c' n
      ((c.nodes n).log.currentTerm + 1) (c.nodes n).config.voters counted) :
    VotesCounted (trace ++ [⟨c, a, c'⟩]) c' where
  id n := (step_ages (h.synced n) hstep).1.trans (h.id n)
  synced n := (step_ages (h.synced n) hstep).2.2
  unused n T hT := hunused n T hT
    (h.unused n T ((step_ages (h.synced n) hstep).2.1.trans_lt hT))
  asked call hcall req majority hreq := by
    obtain hcall | hcall := hasked call hcall req majority hreq
    · obtain ⟨hid, hterm⟩ := h.asked call hcall req majority hreq
      exact ⟨hid, hterm.trans (step_ages (h.synced _) hstep).2.1⟩
    · exact hcall
  answered r hr req majority resp hans := by
    have hmono := (step_ages (h.synced r.sender) hstep).2.1
    obtain hr | hr := hanswered r hr
    · obtain ⟨hterm, hgranted⟩ := h.answered r hr req majority resp hans
      exact ⟨hterm.trans hmono, fun hg => (hgranted hg).append _⟩
    · obtain ⟨hterm, hgranted⟩ := hr req majority resp hans
      exact ⟨hterm.trans hmono, hgranted⟩
  counted x hx n hn := by
    -- candidacies of before are carried on, the new one begins
    obtain hx | hx := List.mem_append.mp hx
    · obtain ⟨counted, hcounted⟩ := h.counted x hx n hn
      exact hold n _ _ counted hcounted
    · obtain rfl := List.mem_singleton.mp hx
      exact hnew n hn

/-- A step that counts no vote and asks for none. -/
theorem quiet (h : VotesCounted trace c) (hstep : c.step a = some c') (ha : ∀ n, a ≠ .timeout n)
    (hvotes : ∀ n T, (c'.nodes n).votes T ≤ (c.nodes n).votes T)
    (hawaited : ∀ n T, (c'.awaited n T).Perm (c.awaited n T))
    (hasked : ∀ call ∈ c'.calls, call.isVote = true → call ∈ c.calls)
    (hanswered : ∀ r ∈ c'.replies, r ∈ c.replies ∨
      ∀ req majority resp, r.answer = .requestVote req majority resp →
        req.term ≤ (c.nodes r.sender).log.currentTerm ∧
          (resp.voteGranted = true → Granted (trace ++ [⟨c, a, c'⟩]) r.sender req.term r.target)) :
    VotesCounted (trace ++ [⟨c, a, c'⟩]) c' :=
  h.next hstep (fun n T _ hzero => Nat.le_zero.mp (hzero ▸ hvotes n T))
    (fun call hcall _ _ hreq => .inl (hasked call hcall (by rw [Call.isVote, hreq]))) hanswered
    (fun n T _ counted hcounted => ⟨counted,
      hcounted.keep _ (step_ages (h.synced n) hstep).2.1 (hawaited n T) (hvotes n T)⟩)
    fun n hn => absurd hn (ha n)

omit [StateMachine σ] in
/-- Nothing is on its way in a term that its sender has not reached. -/
theorem awaited_eq_nil (h : VotesCounted trace c) {n : NodeId} {T : Nat}
    (hT : (c.nodes n).log.currentTerm < T) : c.awaited n T = [] := by
  refine List.append_eq_nil_iff.mpr ⟨List.filterMap_eq_nil_iff.mpr fun call hcall => ?_,
    List.filterMap_eq_nil_iff.mpr fun r hr => ?_⟩
  · -- a request of the term would be from a candidate that is already there
    unfold Call.voter?
    split
    · next req majority hreq =>
      refine if_neg fun ⟨hsender, hterm⟩ => ?_
      have := (h.asked call hcall req majority hreq).2
      rw [hsender] at this
      omega
    · rfl
  · unfold Reply.voter?
    split
    · next req majority resp hans =>
      refine if_neg fun ⟨hsender, hterm⟩ => ?_
      have := (h.answered r hr req majority resp hans).1
      rw [hsender] at this
      omega
    · rfl

section Timeout

variable {b : NodeId}

/-- A candidacy begins. -/
theorem starts (h : VotesCounted trace c) (hnodup : (c.nodes b).config.voters.Nodup)
    (hc' : c' = c.put b (c.nodes b).becomeCandidate.1 (c.nodes b).becomeCandidate.2) :
    CountsVotes (trace ++ [⟨c, .timeout b, c'⟩]) c' b ((c.nodes b).log.currentTerm + 1)
      (c.nodes b).config.voters [] := by
  have hself : c'.nodes b = (c.nodes b).becomeCandidate.1 := by rw [hc', put_nodes_self]
  obtain ⟨hvotes, hterm, hvotedFor⟩ :=
    (c.nodes b).becomeCandidate_votes ((c.nodes b).log.currentTerm + 1)
  rw [← hself] at hvotes hterm hvotedFor
  rw [h.id b] at hvotedFor
  have hnone := h.awaited_eq_nil (Nat.lt_succ_self (c.nodes b).log.currentTerm)
  -- nothing was awaited in a term the candidate has not reached, so only its requests are
  have hawaited : c'.awaited b ((c.nodes b).log.currentTerm + 1) = [] ∨
      c'.awaited b ((c.nodes b).log.currentTerm + 1) =
        (c.nodes b).config.voters.filter (· ≠ b) := by
    rcases (c.nodes b).becomeCandidate_asks b ((c.nodes b).log.currentTerm + 1) with
      hsent | ⟨-, -, hsent⟩
    · rw [hc', c.awaited_put b _ hsent]
      exact .inl hnone
    · obtain ⟨hcalls, hreplies⟩ := List.append_eq_nil_iff.mp hnone
      right
      simp only [awaited, hc', put, List.filterMap_append, hcalls, hreplies, hsent, List.nil_append,
        List.append_nil, h.id b]
  refine ⟨Nat.le_of_eq hterm.symm, ⟨_, List.mem_append_right _ (List.mem_singleton_self _), hterm,
    hvotedFor⟩, ?_, fun v hv => ?_, List.forall_mem_nil _, ?_⟩
  · -- each voter is asked once
    rw [List.append_nil]
    rcases hawaited with heq | heq
    · rw [heq]
      exact .nil
    · rw [heq]
      exact hnodup.filter _
  · rw [List.append_nil] at hv
    rcases hawaited with heq | heq
    · rw [heq] at hv
      contradiction
    · rw [heq] at hv
      obtain ⟨hvoter, hne⟩ := List.mem_filter.mp hv
      exact ⟨by simpa using hne, hvoter⟩
  · -- and the votes of the term start from none
    rcases hvotes with heq | ⟨heq, -⟩
    · rw [heq, h.unused b _ (Nat.lt_succ_self _)]
      exact Nat.zero_le _
    · exact Nat.le_of_eq heq

/-- An earlier candidacy, of whatever node, goes on. -/
theorem goesOn (h : VotesCounted trace c) (hstep : c.step (.timeout b) = some c')
    (hc' : c' = c.put b (c.nodes b).becomeCandidate.1 (c.nodes b).becomeCandidate.2) {n : NodeId}
    {T : Nat} {voters counted : List NodeId} (hcounted : CountsVotes trace c n T voters counted) :
    CountsVotes (trace ++ [⟨c, .timeout b, c'⟩]) c' n T voters counted := by
  have hle := hcounted.term_le
  have hsent : (c.nodes b).becomeCandidate.2.filterMap (Call.voter? n T) = [] := by
    refine ((c.nodes b).becomeCandidate_asks n T).resolve_right fun ⟨hnb, hT, _⟩ => ?_
    rw [hnb, h.id b] at hle
    omega
  refine hcounted.keep _ (step_ages (h.synced n) hstep).2.1
    (.of_eq (by rw [hc', c.awaited_put b _ hsent])) ?_
  by_cases hnb : n = b
  · subst hnb
    have hself : c'.nodes n = (c.nodes n).becomeCandidate.1 := by rw [hc', put_nodes_self]
    rw [hself]
    rcases ((c.nodes n).becomeCandidate_votes T).1 with heq | ⟨-, heq⟩
    · exact Nat.le_of_eq heq
    · omega
  · rw [hc', put_nodes_of_ne hnb]

/-- A node stands for election. -/
theorem timeout (h : VotesCounted trace c) (hnodup : (c.nodes b).config.voters.Nodup)
    (hstep : c.step (.timeout b) = some c')
    (hc' : c' = c.put b (c.nodes b).becomeCandidate.1 (c.nodes b).becomeCandidate.2) :
    VotesCounted (trace ++ [⟨c, .timeout b, c'⟩]) c' := by
  have hself : c'.nodes b = (c.nodes b).becomeCandidate.1 := by rw [hc', put_nodes_self]
  have hvotes := (c.nodes b).becomeCandidate_votes
  rw [← hself] at hvotes
  refine h.next hstep (fun n T hT hzero => ?_) (fun call hcall req majority hreq => ?_)
    (fun r hr => .inl (by rwa [hc'] at hr))
    (fun n T voters counted hcounted => ⟨counted, h.goesOn hstep hc' hcounted⟩) fun n hn => ?_
  · -- of the terms to come only the one it stands in gets a vote, and that is not to come now
    by_cases hn : n = b
    · subst hn
      rw [(hvotes T).2.1] at hT
      obtain heq | ⟨-, heq⟩ := (hvotes T).1
      · rw [heq, hzero]
      · omega
    · rw [hc', put_nodes_of_ne hn, hzero]
  · rw [hc'] at hcall
    refine (List.mem_append.mp hcall).imp_right fun hnew => ?_
    obtain ⟨hsender, hcandidate, hT⟩ := (c.nodes b).becomeCandidate_request hnew hreq
    rw [h.id b] at hsender hcandidate
    rw [hsender, hcandidate, hT, (hvotes 0).2.1]
    exact ⟨rfl, Nat.le_refl _⟩
  · cases hn
    exact ⟨[], h.starts hnodup hc'⟩

end Timeout

/-- The votes after the callback of a reply. -/
theorem reply_votes {r : Reply} {sent : List Call} {replies : List Reply}
    (hc' : c' = { c.put r.sender ((c.nodes r.sender).callback r.target r.answer).1 sent with
      replies })
    (n : NodeId) (T : Nat) : (c'.nodes n).votes T = (c.nodes n).votes T ∨
      (c'.nodes n).votes T = (c.nodes n).votes T + 1 ∧ r.voter? n T = some r.target ∧
        (c.nodes n).log.currentTerm = T ∧
        ∃ req majority resp, r.answer = .requestVote req majority resp ∧ req.term = T ∧
          resp.voteGranted = true := by
  have hnode : c'.nodes n = if n = r.sender then ((c.nodes n).callback r.target r.answer).1
      else c.nodes n := by
    rw [hc']
    split
    · next hn =>
      subst hn
      exact put_nodes_self c r.sender _ sent
    · next hn => exact put_nodes_of_ne hn c _ sent
  rw [hnode]
  split
  · next hn =>
    refine ((c.nodes n).callback_votes_le r.target r.answer T).imp_right ?_
    rintro ⟨hvotes, req, majority, resp, hans, hreq, hterm, hgranted⟩
    refine ⟨hvotes, ?_, hterm, req, majority, resp, hans, hreq, hgranted⟩
    unfold Reply.voter?
    rw [hans]
    exact if_pos ⟨hn.symm, hreq⟩
  · exact .inl rfl

/-- A reply reaches its callback. -/
theorem reply (h : VotesCounted trace c) {i : Nat} {r : Reply} (hstep : c.step (.reply i) = some c')
    (hi : c.replies[i]? = some r)
    (hc' : c' = { c.put r.sender ((c.nodes r.sender).callback r.target r.answer).1
      ((c.nodes r.sender).callback r.target r.answer).2 with replies := c.replies.eraseIdx i }) :
    VotesCounted (trace ++ [⟨c, .reply i, c'⟩]) c' := by
  have hr := List.mem_of_getElem? hi
  have hsent := RaftNode.callback_sent (c.nodes r.sender) r.target r.answer
  have hmono : ∀ n, (c.nodes n).log.currentTerm ≤ (c'.nodes n).log.currentTerm :=
    fun n => (step_ages (h.synced n) hstep).2.1
  refine h.next hstep (fun n T hT hzero => ?_) (fun call hcall req majority hreq => ?_)
    (fun r' hr' => .inl ?_) (fun n T voters counted hcounted => ?_) nofun
  · -- a vote is counted in the current term, which is not below a later one
    have hlt := (hmono n).trans_lt hT
    obtain hvotes | ⟨-, -, hterm, -⟩ := reply_votes hc' n T
    · rw [hvotes, hzero]
    · omega
  · rw [hc'] at hcall
    refine (List.mem_append.mp hcall).imp_right fun hnew => ?_
    -- callbacks send no requests for votes
    have hvote := RaftNode.broadcastAppendEntries_isVote _ (hsent call hnew)
    rw [Call.isVote, hreq] at hvote
    contradiction
  · rw [hc'] at hr'
    exact List.mem_of_mem_eraseIdx hr'
  · have hawaited := c.awaited_reply hi r.sender ((c.nodes r.sender).callback r.target r.answer).1
      (RaftNode.filterMap_voter?_eq_nil _ hsent n T)
    rw [← hc'] at hawaited
    -- is it a vote that the candidate awaits?
    cases hvoter : r.voter? n T with
    | none =>
        rw [hvoter] at hawaited
        refine ⟨counted, hcounted.keep _ (hmono n) hawaited.symm ?_⟩
        obtain hvotes | ⟨-, hsome, -⟩ := reply_votes hc' n T
        · exact Nat.le_of_eq hvotes
        · rw [hvoter] at hsome
          contradiction
    | some v =>
        rw [hvoter] at hawaited
        refine hcounted.answer _ (hmono n) hawaited ((reply_votes hc' n T).imp_right ?_)
        rintro ⟨hvotes, hsome, -, req, majority, resp, hans, hreq, hgranted⟩
        rw [hvoter] at hsome
        -- the vote goes to the candidate that asked
        have hsender : r.sender = n := by
          by_contra hne
          unfold Reply.voter? at hvoter
          rw [hans] at hvoter
          simp only [hne, false_and, if_false] at hvoter
          contradiction
        have := (h.answered r hr req majority resp hans).2 hgranted
        rw [hsender, hreq, ← Option.some.inj hsome] at this
        exact ⟨hvotes, this⟩

/-- Handling a request counts no votes. -/
theorem update_handle_votes_le (c : Cluster σ) (call : Call) (n : NodeId) (T : Nat) :
    (Function.update c.nodes call.target ((c.nodes call.target).handle call.rpc).1 n).votes T ≤
      (c.nodes n).votes T := by
  by_cases hn : n = call.target
  · subst hn
    rw [Function.update_self, RaftNode.handle_votes]
  · rw [Function.update_of_ne hn]

/-- What a node does by itself, other than standing for election. -/
theorem own (h : VotesCounted trace c) {b : NodeId} {nd : RaftNode σ} {sent : List Call}
    (hstep : c.step a = some c') (hown : c.ownStep a = some (b, nd, sent))
    (hquiet : ∀ n, a ≠ .timeout n) (hc' : c' = c.put b nd sent) :
    VotesCounted (trace ++ [⟨c, a, c'⟩]) c' := by
  obtain ⟨hvotes, hsent⟩ := ownStep_votes hown hquiet
  refine h.quiet hstep hquiet (fun n T => ?_) (fun n T => .of_eq ?_)
    (fun call hcall hvote => ?_)
    fun r hr => .inl ?_
  · by_cases hn : n = b
    · rw [hc', hn, put_nodes_self]
      exact hvotes T
    · rw [hc', put_nodes_of_ne hn]
  · rw [hc', c.awaited_put b nd (nd.filterMap_voter?_eq_nil hsent n T)]
  · -- it sends no requests for votes
    rw [hc'] at hcall
    refine (List.mem_append.mp hcall).resolve_right fun hnew => ?_
    rw [nd.broadcastAppendEntries_isVote (hsent call hnew)] at hvote
    contradiction
  · rwa [hc'] at hr

/-- A request is handled: an answer takes its place, and a vote it grants is on record
in the log of the voter. -/
theorem deliver (h : VotesCounted trace c) {i : Nat} {call : Call}
    (hstep : c.step (.deliver i) = some c') (hi : c.calls[i]? = some call)
    (hc' : c' = c.receive call (c.calls.eraseIdx i)) :
    VotesCounted (trace ++ [⟨c, .deliver i, c'⟩]) c' := by
  refine h.quiet hstep (fun _ ha => by cases ha) (fun n T => ?_) (fun n T => ?_)
    (fun x hx _ => ?_) fun r hr => ?_
  · rw [hc']
    exact update_handle_votes_le c call n T
  · rw [hc']
    exact c.awaited_receive hi n T
  · rw [hc'] at hx
    exact List.mem_of_mem_eraseIdx hx
  · rw [hc'] at hr
    refine (List.mem_append.mp hr).imp_right fun hnew req majority resp hans => ?_
    obtain rfl := List.mem_singleton.mp hnew
    -- the answer is one to a request for a vote, so the call was such a request
    have hcall : call.rpc = .requestVote req majority ∧
        ((c.nodes call.target).handleRequestVote req).2 = resp := by
      cases hrpc : call.rpc with
      | requestVote req' majority' =>
          simp only [hrpc] at hans
          cases hans
          exact ⟨rfl, rfl⟩
      | _ =>
          simp only [hrpc] at hans
          contradiction
    obtain ⟨hid, hterm⟩ := h.asked call (List.mem_of_getElem? hi) req majority hcall.1
    refine ⟨hterm, fun hg => ⟨_, List.mem_append_right _ (List.mem_singleton_self _), ?_⟩⟩
    rw [← hcall.2] at hg
    have hrecorded := (c.nodes call.target).handleRequestVote_granted hg
    have hself : c'.nodes call.target = ((c.nodes call.target).handleRequestVote req).1 := by
      rw [step_delivered hstep hi, hcall.1]
      rfl
    rw [hid] at hrecorded
    change (c'.nodes call.target).log.currentTerm = _ ∧ (c'.nodes call.target).log.votedFor = _
    rw [hself]
    exact hrecorded

theorem step (h : VotesCounted trace c) (hok : c.AsksOnce a) (hstep : c.step a = some c') :
    VotesCounted (trace ++ [⟨c, a, c'⟩]) c' := by
  obtain ⟨b, nd, sent, hown, -, hc'⟩ | ⟨i, call, rfl, hi, -, hc'⟩ | ⟨i, call, rfl, hi, hc'⟩ |
    ⟨i, call, rfl, hi, hc'⟩ | ⟨i, call, rfl, hi, -, hc'⟩ | ⟨i, r, rfl, hi, -, -, hc'⟩ :=
    step_cases hstep
  · by_cases ha : ∃ n, a = .timeout n
    · obtain ⟨n, rfl⟩ := ha
      simp only [ownStep] at hown
      split at hown
      · contradiction
      · simp only [Option.some.injEq, Prod.mk.injEq] at hown
        obtain ⟨rfl, hout⟩ := hown
        exact h.timeout hok.2 hstep (by rw [hc', hout])
    · exact h.own hstep hown (fun n hn => ha ⟨n, hn⟩) hc'
  · exact h.deliver hstep hi hc'
  · -- a copy with its answer is none of a request for a vote
    have hvote : call.isVote = false := by
      have := hok.1
      rwa [VotesOnce, repeatsVote, hi] at this
    refine h.quiet hstep (fun _ ha => by cases ha) (fun n T => ?_) (fun n T => .of_eq ?_)
      (fun x hx hx' => ?_) fun r hr => .inl ?_
    · rw [hc']
      exact Nat.le_refl _
    · rw [hc', c.awaited_copyCall hvote]
    · rw [hc'] at hx
      refine (List.mem_append.mp hx).resolve_right fun hnew => ?_
      rw [List.mem_singleton.mp hnew, hvote] at hx'
      contradiction
    · rwa [hc'] at hr
  · subst hc'
    exact h.quiet hstep (fun _ ha => by cases ha) (fun _ _ => Nat.le_refl _) (fun _ _ => .refl _)
      (fun _ hx _ => hx) fun _ hr => .inl hr
  · subst hc'
    exact h.quiet hstep (fun _ ha => by cases ha) (update_handle_votes_le c call)
      (fun _ _ => .refl _)
      (fun _ hx _ => hx) fun _ hr => .inl hr
  · exact h.reply hstep hi hc'

end VotesCounted

end Cluster

/-- **Votes are counted per distinct voter**, in every run in which requests for
votes meet `Cluster.AsksOnce`: of the members that a candidate knew when it
stood for election, itself included, at least as many as its counter says have
recorded their vote for it in the term of the candidacy. -/
theorem votes_per_voter [StateMachine σ] {S : Setup} {trace : List (Taken (Cluster σ) Action)}
    {c : Cluster σ} (hrun : Trace Cluster.step Cluster.AsksOnce S.start trace c)
    {x : Taken (Cluster σ) Action} (hx : x ∈ trace) {n : NodeId} (hn : x.action = .timeout n) :
    (c.nodes n).votes ((x.before.nodes n).log.currentTerm + 1) ≤
      (n :: (x.before.nodes n).config.voters).dedup.countP fun v =>
        Granted trace n ((x.before.nodes n).log.currentTerm + 1) v := by
  have h := hrun.invariant (P := Cluster.VotesCounted) (.init S) fun _ _ _ _ h hok hstep =>
    h.step hok hstep
  obtain ⟨counted, hcounted⟩ := h.counted x hx n hn
  exact hcounted.votes_le

/-! ## Five voters -/

def fiveNodes : Setup where
  members := [1, 2, 3, 4, 5]
  config := ⟨[1, 2, 3, 4, 5], []⟩
  snapshotThresholdEntries := 10000
  voters_nodup := by decide
  voters_ne_nil := by decide
  members_ne_zero := by decide

/-- Node 1 stands for election and is granted the votes of nodes 2 and 3. -/
def twoGranted : List Action := [.timeout 1, .deliver 0, .deliver 0, .reply 0, .reply 0]

theorem votes_per_voter_of_twoGranted :
    ((replay Cluster.step (fiveNodes.start : Cluster KvStore) twoGranted).nodes 1).votes 1 = 3 ∧
      3 ≤ [1, 2, 3, 4, 5].dedup.countP fun v =>
        Granted (traced Cluster.step (fiveNodes.start : Cluster KvStore) twoGranted) 1 1 v := by
  have hrun : Trace Cluster.step Cluster.AsksOnce (fiveNodes.start : Cluster KvStore)
      (traced Cluster.step fiveNodes.start twoGranted)
      (replay Cluster.step fiveNodes.start twoGranted) := trace_replay (by decide +kernel)
  have hvotes :
      ((replay Cluster.step (fiveNodes.start : Cluster KvStore) twoGranted).nodes 1).votes 1 =
        3 := by
    decide +kernel
  have hle := votes_per_voter hrun (x := ⟨fiveNodes.start, .timeout 1,
    replay Cluster.step fiveNodes.start [.timeout 1]⟩) List.mem_cons_self rfl
  exact ⟨hvotes, hvotes ▸ hle⟩

/-- The request to node 2 is copied, and both copies are answered. -/
def copiedVote : List Action :=
  [.timeout 1, .copy 0, .deliver 0, .deliver 3, .reply 0, .reply 0]

/-- Node 1 counts three votes and leads, with the votes of nodes 1 and 2. -/
theorem copied_vote_counts :
    Trace Cluster.step (fun _ _ => True) (fiveNodes.start : Cluster KvStore)
        (traced Cluster.step fiveNodes.start copiedVote)
        (replay Cluster.step fiveNodes.start copiedVote) ∧
      ((replay Cluster.step (fiveNodes.start : Cluster KvStore) copiedVote).nodes 1).role =
        .leader ∧
      ((replay Cluster.step (fiveNodes.start : Cluster KvStore) copiedVote).nodes 1).votes 1 = 3 ∧
      ([1, 2, 3, 4, 5].dedup.countP fun v =>
        Granted (traced Cluster.step (fiveNodes.start : Cluster KvStore) copiedVote) 1 1 v) = 2 :=
  ⟨trace_replay (by decide +kernel), by decide +kernel, by decide +kernel, by decide +kernel⟩

end KvRaft
