import KvRaft.Aligned

/-!
# KvRaft.LogTerms

The order of the terms in the logs, as long as no snapshot is taken.  A log and the
entries of a request are of the same kind (`TermsOrdered`): the indices follow on one
another, the terms do not go down, none is 0, and none is above that of the node or
of the request.  A log starts after nothing, a request after the entry it names.

A piece of such a log is such a request (`InOrder.entriesAfter`), and a request that
fits a log makes it such a log again (`InOrder.appendAndSync`), so that the messages
carry the order from log to log (`log_terms_ordered`).  Elections play no role: two
leaders of one term would keep the order, too.
-/

namespace KvRaft

open PersistentLog

/-- Entries that follow an entry with this index and this term, none of them of a
term above `bound`. -/
structure TermsOrdered (prevIndex prevTerm bound : Nat) (es : List LogEntry) : Prop where
  indexed : IndexedFrom prevIndex es
  ascending : (prevTerm :: es.map LogEntry.term).Pairwise (· ≤ ·)
  ne_zero : ∀ e ∈ es, e.term ≠ 0
  le_bound : ∀ e ∈ es, e.term ≤ bound

/-- The term at a place of a log, as a place in the list of terms. -/
theorem getElem?_terms {es : List LogEntry} {i : Nat} (hi : i ≤ es.length) :
    (0 :: es.map LogEntry.term)[i]? = some (Replica.termAt es i) := by
  cases i with
  | zero => rfl
  | succ i =>
      rw [Replica.termAt_succ_of_lt hi, List.getElem?_cons_succ, List.getElem?_map,
        List.getElem?_eq_getElem hi]
      rfl

namespace TermsOrdered

variable {i t bound bound' : Nat} {es es' : List LogEntry}

theorem nil (i t bound : Nat) : TermsOrdered i t bound [] where
  indexed := .nil i
  ascending := List.pairwise_singleton _ _
  ne_zero := fun _ h => by cases h
  le_bound := fun _ h => by cases h

theorem singleton {e : LogEntry} (hindex : e.index = i + 1) (hterm : e.term = t) (hpos : 0 < t) :
    TermsOrdered i t t [e] where
  indexed := .singleton hindex
  ascending := by simp [hterm]
  ne_zero := by simp [hterm, hpos.ne']
  le_bound := by simp [hterm]

theorem mono (h : TermsOrdered i t bound es) (hle : bound ≤ bound') :
    TermsOrdered i t bound' es :=
  { h with le_bound := fun e he => (h.le_bound e he).trans hle }

theorem take (h : TermsOrdered i t bound es) (m : Nat) : TermsOrdered i t bound (es.take m) where
  indexed := h.indexed.take m
  ascending := h.ascending.sublist (((List.take_sublist m es).map _).cons_cons t)
  ne_zero := fun e he => h.ne_zero e (List.mem_of_mem_take he)
  le_bound := fun e he => h.le_bound e (List.mem_of_mem_take he)

/-- What follows an entry of a log. -/
theorem drop (h : TermsOrdered 0 0 bound es) (i : Nat) :
    TermsOrdered i (Replica.termAt es i) bound (es.drop i) where
  indexed := by
    have hdrop := h.indexed.drop i
    rwa [Nat.zero_add] at hdrop
  ascending := by
    by_cases hi : i ≤ es.length
    · -- the entry and what follows are the terms from place `i` on
      have hterms : (0 :: es.map LogEntry.term).drop i =
          Replica.termAt es i :: (es.drop i).map LogEntry.term := by
        rw [List.drop_eq_getElem?_toList_append, getElem?_terms hi, List.drop_succ_cons,
          List.map_drop]
        rfl
      rw [← hterms]
      exact h.ascending.sublist (List.drop_sublist _ _)
    · rw [List.drop_of_length_le (by omega)]
      exact List.pairwise_singleton _ _
  ne_zero := fun e he => h.ne_zero e (List.mem_of_mem_drop he)
  le_bound := fun e he => h.le_bound e (List.mem_of_mem_drop he)

theorem termAt_le (h : TermsOrdered 0 0 bound es) (i : Nat) : Replica.termAt es i ≤ bound := by
  cases i with
  | zero => exact Nat.zero_le _
  | succ i =>
      by_cases hi : i < es.length
      · rw [Replica.termAt_succ_of_lt hi]
        exact h.le_bound _ (List.getElem_mem hi)
      · rw [Replica.termAt_of_length_lt (by omega)]
        exact Nat.zero_le _

/-- Up to an entry no term is above that of the entry. -/
theorem term_le_termAt (h : TermsOrdered 0 0 bound es) (hi : i ≤ es.length) {x : Nat}
    (hx : x ∈ 0 :: (es.take i).map LogEntry.term) : x ≤ Replica.termAt es i := by
  have htake : 0 :: (es.take i).map LogEntry.term = (0 :: es.map LogEntry.term).take (i + 1) := by
    rw [List.take_succ_cons, List.map_take]
  rw [htake] at hx
  obtain ⟨j, hj, rfl⟩ := List.mem_take_iff_getElem.mp hx
  obtain ⟨hi', hat⟩ := List.getElem?_eq_some_iff.mp (getElem?_terms hi)
  rw [← hat]
  rcases Nat.eq_or_lt_of_le (show j ≤ i by omega) with rfl | hlt
  · exact Nat.le_refl _
  · exact List.pairwise_iff_getElem.mp h.ascending j i (by omega) hi' hlt

/-- Entries that fit a log: they replace what follows the entry that they name. -/
theorem splice (h : TermsOrdered 0 0 bound es) (h' : TermsOrdered i t bound es')
    (hi : i ≤ es.length) (ht : Replica.termAt es i ≤ t) :
    TermsOrdered 0 0 bound (es.take i ++ es') where
  indexed := by
    refine (h.indexed.take i).append ?_
    rw [List.length_take, Nat.min_eq_left hi, Nat.zero_add]
    exact h'.indexed
  ascending := by
    rw [List.map_append, ← List.cons_append, List.pairwise_append]
    refine ⟨(h.take i).ascending, h'.ascending.of_cons, fun x hx y hy => ?_⟩
    calc x ≤ Replica.termAt es i := h.term_le_termAt hi hx
      _ ≤ t := ht
      _ ≤ y := List.rel_of_pairwise_cons h'.ascending hy
  ne_zero := fun e he => (List.mem_append.mp he).elim ((h.take i).ne_zero e) (h'.ne_zero e)
  le_bound := fun e he => (List.mem_append.mp he).elim ((h.take i).le_bound e) (h'.le_bound e)

end TermsOrdered

/-! ## The log -/

/-- A log without a snapshot whose terms are in order, in memory and on disk. -/
structure PersistentLog.InOrder (L : PersistentLog) : Prop where
  synced : L.Synced
  snapshotIndex : L.snapshotIndex = 0
  snapshotTerm : L.snapshotTerm = 0
  ordered : TermsOrdered 0 0 L.currentTerm L.entries

namespace PersistentLog.InOrder

variable {L : PersistentLog} {i t : Nat} {es : List LogEntry}

theorem represents (h : L.InOrder) : L.Represents L.entries where
  snap_le := by rw [h.snapshotIndex]; exact Nat.zero_le _
  entries := by rw [h.snapshotIndex]; rfl
  snapshotTerm := by rw [h.snapshotTerm, h.snapshotIndex]; rfl
  indexed := h.ordered.indexed

theorem termAt (h : L.InOrder) (i : Nat) : L.termAt i = Replica.termAt L.entries i :=
  h.represents.termAt (by rw [h.snapshotIndex]; exact Nat.zero_le i)

theorem setHardState (h : L.InOrder) (hle : L.currentTerm ≤ t) (v : NodeId) :
    (L.setHardState t v).InOrder where
  synced := h.synced.setHardState t v
  snapshotIndex := h.snapshotIndex
  snapshotTerm := h.snapshotTerm
  ordered := h.ordered.mono hle

theorem appendAndSync (h : L.InOrder) (hes : TermsOrdered i t L.currentTerm es)
    (hi : i ≤ L.lastIndex) (ht : L.termAt i ≤ t) : (L.appendAndSync es).InOrder := by
  by_cases hne : es = []
  · rw [hne]
    exact h
  have hentries : (L.appendAndSync es).entries = L.entries.take i ++ es := by
    have happend := appendAndSync_entries (by rw [h.snapshotIndex]; exact Nat.zero_le i) hne
      hes.indexed
    rwa [h.snapshotIndex, Nat.sub_zero] at happend
  rw [h.represents.lastIndex] at hi
  rw [h.termAt] at ht
  refine ⟨h.synced.appendAndSync es, ?_, ?_, ?_⟩
  · rw [appendAndSync_snapshotIndex, h.snapshotIndex]
  · rw [appendAndSync_snapshotTerm, h.snapshotTerm]
  · rw [appendAndSync_currentTerm, hentries]
    exact h.ordered.splice hes hi ht

/-- What a leader sends of its log. -/
theorem entriesAfter (h : L.InOrder) (i m : Nat) :
    TermsOrdered i (L.termAt i) L.currentTerm (L.entriesAfter i m) := by
  rw [h.termAt, h.represents.entriesAfter (by rw [h.snapshotIndex]; exact Nat.zero_le i)]
  split
  · exact h.ordered.drop i
  · exact (h.ordered.drop i).take m

/-- A request that passes the consistency check fits the log. -/
theorem of_consistencyCheck (h : L.InOrder) {req : AppendEntriesReq}
    (hcheck : RaftNode.consistencyCheck L req = none) :
    req.prevLogIndex ≤ L.lastIndex ∧ L.termAt req.prevLogIndex ≤ req.prevLogTerm := by
  refine ⟨RaftNode.prevLogIndex_le h.represents.aligned hcheck, ?_⟩
  rcases RaftNode.of_consistencyCheck hcheck with h0 | ⟨-, h0⟩ | ⟨-, heq⟩
  · rw [h0, h.termAt]
    exact Nat.zero_le _
  · rw [h0]
    exact Nat.zero_le _
  · rw [heq]

end PersistentLog.InOrder

/-! ## A node and its requests -/

/-- The entries of a request are in order; a snapshot is empty. -/
def Rpc.InOrder : Rpc → Prop
  | .requestVote .. => True
  | .appendEntries req => TermsOrdered req.prevLogIndex req.prevLogTerm req.term req.entries
  | .installSnapshot req => req.lastIncludedIndex = 0

namespace RaftNode

variable {σ : Type} {n n' : RaftNode σ}

/-- The log is in order, and only a follower is in term 0. -/
structure InOrder (n : RaftNode σ) : Prop where
  log : n.log.InOrder
  active : n.role ≠ .follower → 0 < n.log.currentTerm

namespace InOrder

theorem same (h : n.InOrder) (hlog : n'.log = n.log) (hrole : n'.role = n.role) : n'.InOrder where
  log := by rw [hlog]; exact h.log
  active := by rw [hlog, hrole]; exact h.active

theorem becomeFollower (h : n.InOrder) (t : Nat) (l : NodeId) : (n.becomeFollower t l).InOrder where
  log := by
    unfold RaftNode.becomeFollower
    dsimp only
    split
    · next hterm => exact h.log.setHardState (Nat.le_of_lt hterm) 0
    · exact h.log
  active := fun hrole => absurd rfl hrole

theorem castVote (h : n.InOrder) (req : RequestVoteReq) : (n.castVote req).1.InOrder := by
  unfold RaftNode.castVote
  split
  · exact ⟨h.log.setHardState (Nat.le_refl _) req.candidateId, h.active⟩
  · exact h

theorem stand (h : n.InOrder) : n.stand.InOrder where
  log := h.log.setHardState (Nat.le_succ _) n.id
  active := fun _ => Nat.succ_pos _

/-- A node that is not a follower adds an entry of its term. -/
theorem append (h : n.InOrder) (hrole : n.role ≠ .follower) (data : Bytes) (type : EntryType) :
    { n with log := n.log.appendAndSync [n.newEntry data type] }.InOrder where
  log := by
    refine h.log.appendAndSync (.singleton rfl rfl (h.active hrole)) (Nat.le_refl _) ?_
    rw [h.log.termAt]
    exact h.log.ordered.termAt_le _
  active := by
    rw [appendAndSync_currentTerm]
    exact h.active

/-- An accepted request takes the log to its term and replaces what follows the
entry that it names. -/
theorem acceptEntries (h : n.InOrder) {req : AppendEntriesReq}
    (hreq : (Rpc.appendEntries req).InOrder) (hacc : n.accepts req) :
    ((n.becomeFollower req.term req.leaderId).acceptEntries req).InOrder where
  log := by
    have hlog := (h.becomeFollower req.term req.leaderId).log
    have hcheck := hacc.2
    rw [← consistencyCheck_becomeFollower n req.term req.leaderId] at hcheck
    obtain ⟨hreaches, hterm⟩ := hlog.of_consistencyCheck hcheck
    refine hlog.appendAndSync ?_ hreaches hterm
    rw [becomeFollower_currentTerm n hacc.1]
    exact hreq
  active := fun hrole => absurd rfl hrole

variable [StateMachine σ]

theorem applyCommittedEntries (h : n.InOrder) : n.applyCommittedEntries.InOrder :=
  h.same (applyCommittedEntries_log n) (applyCommittedEntries_role n)

theorem tryAdvanceCommitIndex (h : n.InOrder) : n.tryAdvanceCommitIndex.InOrder :=
  h.same (tryAdvanceCommitIndex_log n) (tryAdvanceCommitIndex_role n)

theorem propose (h : n.InOrder) (data : Bytes) (type : EntryType) :
    (n.propose data type).1.InOrder := by
  obtain heq | ⟨hrole, heq⟩ := n.propose_cases data type
  · rw [heq]
    exact h
  · rw [heq]
    exact (h.append (by simp [hrole]) data type).tryAdvanceCommitIndex

theorem becomeLeader (h : n.InOrder) : n.becomeLeader.1.InOrder := by
  by_cases hrole : n.role = .candidate
  · have hlead : n.lead.InOrder := ⟨h.log, fun _ => h.active (by simp [hrole])⟩
    rw [becomeLeader_fst hrole]
    exact (hlead.propose [] .noOp).tryAdvanceCommitIndex
  · rw [becomeLeader_of_ne hrole]
    exact h

theorem becomeCandidate (h : n.InOrder) : n.becomeCandidate.1.InOrder := by
  have hcandidacy : n.candidacy.InOrder := h.stand.same rfl rfl
  have hstands := n.stands_becomeCandidate
  generalize n.becomeCandidate.1 = n', n.becomeCandidate.2 = sent at hstands
  cases hstands with
  | outside => exact h.stand
  | alone => exact hcandidacy.becomeLeader
  | ask => exact hcandidacy

theorem handle (h : n.InOrder) {rpc : Rpc} (hrpc : rpc.InOrder) : (n.handle rpc).1.InOrder := by
  have hhandles := n.handles_handle rpc
  generalize (n.handle rpc).1 = n' at hhandles
  cases hhandles with
  | refuse => exact h
  | vote req => exact h.castVote req
  | voteLater req => exact (h.becomeFollower req.term 0).castVote req
  | reject req | covered req => exact h.becomeFollower req.term req.leaderId
  | accept req hacc => exact (h.acceptEntries hrpc hacc).applyCommittedEntries
  | install req hterm hgt =>
      -- an empty snapshot is covered by any log
      have hempty : req.lastIncludedIndex = 0 := hrpc
      omega

theorem callback (h : n.InOrder) (peer : NodeId) (ans : Answer) :
    (n.callback peer ans).1.InOrder := by
  have hcalls := n.callsBack_callback peer ans
  generalize (n.callback peer ans).1 = n', (n.callback peer ans).2 = sent at hcalls
  cases hcalls with
  | ignore => exact h
  | follow _ t => exact h.becomeFollower t 0
  | count => exact h.same rfl rfl
  | win =>
      refine becomeLeader ?_
      exact h.same rfl rfl
  | advance =>
      refine tryAdvanceCommitIndex ?_
      exact h.same rfl rfl
  | track => exact h.same rfl rfl

theorem restart (h : n.InOrder) : n.restart.InOrder where
  log := by
    have hload : n.restart.log = n.log := h.log.synced
    rw [hload]
    exact h.log
  active := fun hrole => absurd rfl hrole

/-- `forceSnapshot` does nothing if it takes no snapshot. -/
theorem forceSnapshot (h : n.InOrder)
    (hnone : n.forceSnapshot.log.snapshotIndex = n.log.snapshotIndex) :
    n.forceSnapshot.InOrder := by
  rcases n.forceSnapshot_cases with heq | heq
  · rw [heq]
    exact h
  · rw [heq, compactUpTo_snapshotIndex] at hnone
    rw [heq, compactUpTo, if_pos (by omega)]
    exact h

theorem maybeSnapshot (h : n.InOrder)
    (hnone : n.maybeSnapshot.log.snapshotIndex = n.log.snapshotIndex) :
    n.maybeSnapshot.InOrder := by
  rcases n.maybeSnapshot_cases with heq | heq
  · rw [heq]
    exact h
  · rw [heq] at hnone ⊢
    exact h.forceSnapshot hnone

/-- What a leader sends. -/
theorem broadcast (h : n.InOrder) {call : Call} (hcall : call ∈ n.broadcastAppendEntries) :
    call.rpc.InOrder := by
  obtain ⟨-, peer, rfl⟩ := of_mem_broadcast hcall
  unfold replicateTo
  dsimp only
  split
  · exact h.log.snapshotIndex
  · exact h.log.entriesAfter _ _

end InOrder

end RaftNode

/-! ## The cluster -/

namespace Cluster

variable {σ : Type} [StateMachine σ]

/-- The step takes no snapshot: a node that may do so keeps the one it has. -/
def KeepsSnapshot (c : Cluster σ) (a : Action) : Prop :=
  a.takesSnapshot = true →
    ∀ x ∈ c.ownStep a, x.2.1.log.snapshotIndex = (c.nodes x.1).log.snapshotIndex

instance (c : Cluster σ) (a : Action) : Decidable (c.KeepsSnapshot a) :=
  inferInstanceAs (Decidable (_ → _))

/-- Logs and requests are in order. -/
structure InOrder (c : Cluster σ) : Prop where
  nodes : ∀ n, (c.nodes n).InOrder
  calls : ∀ call, c.OnItsWay call → call.rpc.InOrder

namespace InOrder

variable {c c' : Cluster σ} {a : Action}

theorem init (members : List NodeId) (config : ClusterConfig) (threshold : Nat) :
    (Cluster.init members config threshold : Cluster σ).InOrder where
  nodes := fun n => ⟨⟨rfl, rfl, rfl, .nil 0 0 0⟩, fun hrole => absurd rfl hrole⟩
  calls := fun call hcall => by rcases hcall with hcall | hcall <;> cases hcall

theorem ownStep (h : c.InOrder) (hok : c.KeepsSnapshot a) {n : NodeId} {nd : RaftNode σ}
    {sent : List Call} (hown : c.ownStep a = some (n, nd, sent)) : nd.InOrder := by
  cases a with
  | restart =>
      cases hown
      exact (h.nodes n).restart
  | timeout m =>
      obtain ⟨-, hown⟩ := Option.ite_none_left_eq_some.mp hown
      obtain ⟨-, hout⟩ := Prod.mk.inj (Option.some.inj hown)
      have hnd := (h.nodes m).becomeCandidate
      rwa [hout] at hnd
  | heartbeat | readBarrier =>
      cases hown
      exact h.nodes n
  | propose | addServer | removeServer =>
      cases hown
      exact (h.nodes n).propose _ _
  | forceSnapshot =>
      -- the condition: the snapshot stays the one the node has
      have hnone := hok rfl _ hown
      cases hown
      exact (h.nodes n).forceSnapshot hnone
  | maybeSnapshot =>
      have hnone := hok rfl _ hown
      cases hown
      exact (h.nodes n).maybeSnapshot hnone
  | deliver | copy | copySilent | redeliver | reply => cases hown

theorem step (h : c.InOrder) (hok : c.KeepsSnapshot a) (hstep : c.step a = some c') :
    c'.InOrder := by
  have hnodes : ∀ n, (c'.nodes n).InOrder := by
    intro n
    obtain heq | ⟨sent, hown⟩ | ⟨call, hcall, rfl, heq⟩ | ⟨i, r, -, -, -, heq⟩ :=
      step_node hstep n
    · rw [heq]
      exact h.nodes n
    · exact h.ownStep hok hown
    · rw [heq]
      exact (h.nodes call.target).handle (h.calls call (onItsWay_of_delivered hcall))
    · rw [heq]
      exact (h.nodes n).callback r.target r.answer
  -- what is sent now comes from a log in order
  refine ⟨hnodes, fun call hway => ?_⟩
  rcases step_calls hstep hway with hway | hvote | ⟨n, hsent⟩
  · exact h.calls call hway
  · unfold Call.isVote at hvote
    split at hvote
    · next hrpc => rw [hrpc]; trivial
    · contradiction
  · exact (hnodes n).broadcast hsent

theorem run (h : c.InOrder) (hrun : Run Cluster.step KeepsSnapshot c c') : c'.InOrder :=
  hrun.invariant h fun _ _ _ h hok hstep => h.step hok hstep

end InOrder

end Cluster

variable {σ : Type} [StateMachine σ]

/-- **Log terms are well ordered** in every state of every run in which no snapshot
is taken: along every log the indices go up from 1 one by one, the terms are not 0
and do not go down, and none is above the node's term; and so it is with the entries
of every request on its way, from the entry that it names on and up to its term. -/
theorem log_terms_ordered {members : List NodeId} {config : ClusterConfig} {threshold : Nat}
    {c : Cluster σ}
    (hrun : Run Cluster.step Cluster.KeepsSnapshot (.init members config threshold) c) :
    (∀ n, TermsOrdered 0 0 (c.nodes n).log.currentTerm (c.nodes n).log.entries) ∧
      ∀ call req, c.OnItsWay call → call.rpc = .appendEntries req →
        TermsOrdered req.prevLogIndex req.prevLogTerm req.term req.entries := by
  have hinv := (Cluster.InOrder.init members config threshold).run hrun
  refine ⟨fun n => (hinv.nodes n).log.ordered, fun call req hway hreq => ?_⟩
  have hcall := hinv.calls call hway
  rw [hreq] at hcall
  exact hcall

theorem log_terms_ordered_of_replicated :
    (replicated.nodes 2).log.entries ≠ [] ∧
      TermsOrdered 0 0 (replicated.nodes 2).log.currentTerm (replicated.nodes 2).log.entries := by
  have hrun : Run Cluster.step Cluster.KeepsSnapshot threeNodes.start replicated :=
    .trans (run_replay (by decide +kernel) : Run _ _ _ elected)
      (.trans (run_replay (by decide +kernel) : Run _ _ _ committed)
        (run_replay (by decide +kernel)))
  exact ⟨by decide +kernel, (log_terms_ordered hrun).1 2⟩

end KvRaft
