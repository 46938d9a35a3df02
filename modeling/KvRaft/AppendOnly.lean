import KvRaft.Aligned
import KvRaft.VoteCount

/-!
# KvRaft.AppendOnly

A leader never overwrites or drops an entry of its own log: between any two
moments at which a node leads the same term, its log has only grown, by entries
of that term, and lost nothing but what it has put into a snapshot.

* `PersistentLog.Grown` — what a term of office may make of a log;
* `RaftNode.Past` — a node that no longer leads a term, and never will again;
* `leader_append_only` — the two together, along every run.

Membership changes, snapshots, restarts and copied messages are all allowed, and
so are several leaders of one term.
-/

namespace KvRaft

open PersistentLog

variable {σ : Type}

/-! ## Logs that grow -/

/-- `L'` is `L` with entries of term `t` on top, up to what was compacted. -/
structure PersistentLog.Grown (t : Nat) (L L' : PersistentLog) : Prop where
  kept : ∀ i e, L.entryAt i = some e → L'.snapshotIndex < i → L'.entryAt i = some e
  added : ∀ i e, L'.entryAt i = some e → L.lastIndex < i → e.term = t
  snap_le : L.snapshotIndex ≤ L'.snapshotIndex
  lastIndex_le : L.lastIndex ≤ L'.lastIndex

namespace PersistentLog

variable {t : Nat} {L L' L'' : PersistentLog}

theorem Aligned.entryAt_le (h : L.Aligned) {i : Nat} {e : LogEntry} (he : L.entryAt i = some e) :
    i ≤ L.lastIndex := by
  unfold entryAt at he
  split at he
  · contradiction
  · have := (List.getElem?_eq_some_iff.mp he).1
    rw [h.lastIndex]
    omega

theorem Aligned.exists_entryAt (h : L.Aligned) {i : Nat} (hlt : L.snapshotIndex < i)
    (hle : i ≤ L.lastIndex) : ∃ e, L.entryAt i = some e := by
  obtain ⟨e, he, rfl, -⟩ := h.exists_mem_of_le hlt hle
  exact ⟨e, h.entryAt_of_mem he⟩

namespace Grown

/-- Entries and snapshot are the same. -/
theorem of_eq (h : L.Aligned) (hentries : L'.entries = L.entries)
    (hsnap : L'.snapshotIndex = L.snapshotIndex) : Grown t L L' := by
  have hat : ∀ i, L'.entryAt i = L.entryAt i := fun i => by simp only [entryAt, hentries, hsnap]
  have hlast : L'.lastIndex = L.lastIndex := by simp only [lastIndex, hentries, hsnap]
  refine ⟨fun i e he _ => (hat i).trans he, fun i e he hlt => ?_, hsnap.ge, hlast.ge⟩
  rw [hat] at he
  exact absurd (h.entryAt_le he) (by omega)

theorem trans (h : Grown t L L') (ha : L'.Aligned) (h' : Grown t L' L'') : Grown t L L'' where
  kept := fun i e he hi => h'.kept i e (h.kept i e he (h'.snap_le.trans_lt hi)) hi
  added := fun i e he hi => by
    by_cases hle : i ≤ L'.lastIndex
    · -- an entry the middle log has, too
      have hsnap : L''.snapshotIndex < i := by
        by_contra hnot
        rw [entryAt, if_pos (by omega)] at he
        contradiction
      obtain ⟨x, hx⟩ := ha.exists_entryAt (h'.snap_le.trans_lt hsnap) hle
      have hsame := h'.kept i x hx hsnap
      rw [he] at hsame
      exact h.added i e (Option.some.inj hsame ▸ hx) hi
    · exact h'.added i e he (Nat.lt_of_not_le hle)
  snap_le := h.snap_le.trans h'.snap_le
  lastIndex_le := h.lastIndex_le.trans h'.lastIndex_le

/-- A leader's proposal goes on top. -/
theorem append (h : L.Aligned) {e : LogEntry} (hindex : e.index = L.lastIndex + 1) :
    Grown e.term L (L.appendAndSync [e]) := by
  have hlast := h.lastIndex
  have hentries : (L.appendAndSync [e]).entries = L.entries ++ [e] := by
    rw [appendAndSync_entries (i := L.lastIndex) (by omega) (List.cons_ne_nil e [])
      (.singleton hindex), List.take_of_length_le (by omega)]
  have hat : ∀ i, L.snapshotIndex < i → (L.appendAndSync [e]).entryAt i =
      (L.entries ++ [e])[i - L.snapshotIndex - 1]? := fun i hi => by
    rw [entryAt, appendAndSync_snapshotIndex, hentries, if_neg (by omega)]
  refine ⟨fun i x hx hi => ?_, fun i x hx hi => ?_, by rw [appendAndSync_snapshotIndex], ?_⟩
  · have hle := h.entryAt_le hx
    rw [appendAndSync_snapshotIndex] at hi
    rw [hat i hi, List.getElem?_append_left (by omega)]
    rwa [entryAt, if_neg (by omega)] at hx
  · rw [hat i (by omega), List.getElem?_append_right (by omega)] at hx
    have hmem := List.mem_singleton.mp (List.mem_of_getElem? hx)
    rw [hmem]
  · have htop : (L.appendAndSync [e]).lastIndex = L.lastIndex + 1 := by
      rw [lastIndex, hentries, List.getLast?_concat, ← hindex]
    omega

/-- A snapshot takes entries away only up to its own index. -/
theorem compact (h : L.Aligned) (i s : Nat) (bytes : Bytes) :
    Grown t L (L.compactUpTo i s bytes) := by
  have ha := h.compactUpTo i s bytes
  have hsnap := compactUpTo_snapshotIndex L s i bytes
  -- above both snapshots the entries are the same
  have hat : ∀ j, max L.snapshotIndex i < j →
      (L.compactUpTo i s bytes).entryAt j = L.entryAt j := by
    intro j hj
    rw [entryAt, entryAt, hsnap, if_neg (by omega), if_neg (by omega), compactUpTo_entries,
      List.getElem?_drop]
    congr 1
    omega
  refine ⟨fun j e he hj => ?_, fun j e he hj => ?_, by rw [hsnap]; exact Nat.le_max_left _ _, ?_⟩
  · rw [hsnap] at hj
    rw [hat j hj, he]
  · -- nothing new appears above the end of the log
    have hlt : max L.snapshotIndex i < j := by
      by_contra hnot
      rw [entryAt, hsnap, if_pos (by omega)] at he
      contradiction
    rw [hat j hlt] at he
    exact absurd (h.entryAt_le he) (by omega)
  · rw [ha.lastIndex, h.lastIndex, hsnap, compactUpTo_entries, List.length_drop]
    omega

end Grown

end PersistentLog

/-! ## A term of office -/

namespace RaftNode

/-- The node leads term `t`. -/
def InOffice (t : Nat) (n : RaftNode σ) : Prop := n.role = .leader ∧ n.log.currentTerm = t

/-- The node is done with term `t`: it has gone on to another, or follows in it. -/
def Past (t : Nat) (n : RaftNode σ) : Prop :=
  t < n.log.currentTerm ∨ t = n.log.currentTerm ∧ n.role = .follower

theorem Past.not_inOffice {t : Nat} {n : RaftNode σ} (h : n.Past t) : ¬ n.InOffice t := by
  rintro ⟨hrole, hterm⟩
  rcases h with h | ⟨-, h⟩
  · omega
  · rw [hrole] at h
    contradiction

theorem Past.of_follower {t : Nat} {n : RaftNode σ} (hle : t ≤ n.log.currentTerm)
    (hrole : n.role = .follower) : n.Past t :=
  (Nat.lt_or_eq_of_le hle).imp_right fun h => ⟨h, hrole⟩

/-- What a step may make of a leader of term `t`. -/
def Continues (t : Nat) (n n' : RaftNode σ) : Prop :=
  n'.InOffice t ∧ n.log.Grown t n'.log ∧ n.commitIndex ≤ n'.commitIndex

theorem Continues.trans {t : Nat} {n n' n'' : RaftNode σ} (h : n.Continues t n')
    (ha : n'.log.Aligned) (h' : n'.Continues t n'') : n.Continues t n'' :=
  ⟨h'.1, h.2.1.trans ha h'.2.1, h.2.2.trans h'.2.2⟩

section Functions

variable [StateMachine σ] {t : Nat} {n : RaftNode σ}

omit [StateMachine σ] in
/-- The node's log and role are left alone. -/
theorem Continues.of_eq {n' : RaftNode σ} (h : n.InOffice t) (ha : n.log.Aligned)
    (hlog : n'.log = n.log) (hrole : n'.role = n.role) (hcommit : n.commitIndex ≤ n'.commitIndex) :
    n.Continues t n' :=
  ⟨⟨hrole.trans h.1, by rw [hlog]; exact h.2⟩, .of_eq ha (by rw [hlog]) (by rw [hlog]), hcommit⟩

theorem le_tryAdvanceCommitIndex {k : Nat} (hk : k ≤ n.commitIndex) :
    k ≤ n.tryAdvanceCommitIndex.commitIndex := by
  obtain h | ⟨i, -, hlt, -, h⟩ := n.tryAdvanceCommitIndex_cases
  · rwa [h]
  · obtain ⟨_, _, _, _, _, _, heq, -⟩ :=
      applyCommittedEntries_eq ({ n with commitIndex := i } : RaftNode σ)
    rw [h, heq]
    exact hk.trans (Nat.le_of_lt hlt)

theorem Continues.propose (h : n.InOffice t) (ha : n.log.Aligned) (data : Bytes)
    (type : EntryType) : n.Continues t (n.propose data type).1 := by
  refine ⟨⟨(n.propose_role data type).trans h.1, ?_⟩, ?_, ?_⟩
  · rw [propose_log h.1, appendAndSync_currentTerm, h.2]
  · rw [propose_log h.1, ← h.2]
    exact .append (e := n.newEntry data type) ha rfl
  · rw [propose_fst h.1]
    exact le_tryAdvanceCommitIndex (Nat.le_refl _)

theorem Continues.forceSnapshot (h : n.InOffice t) (ha : n.log.Aligned) :
    n.Continues t n.forceSnapshot := by
  rcases n.forceSnapshot_cases with heq | heq
  · exact .of_eq h ha (by rw [heq]) (by rw [heq]) (by rw [heq])
  · rw [heq]
    exact ⟨⟨h.1, (compactUpTo_currentTerm _ _ _ _).trans h.2⟩, .compact ha _ _ _, Nat.le_refl _⟩

/-- A request from a leader makes the node follow, and one for a vote of a later
term as well. -/
theorem InOffice.handle (h : n.InOffice t) (ha : n.log.Aligned) (rpc : Rpc) :
    n.Continues t (n.handle rpc).1 ∨ (n.handle rpc).1.Past t := by
  have hterm : t ≤ (n.handle rpc).1.log.currentTerm := by
    have heffects : Effects (fun _ _ => True) n (n.handle rpc).1 := n.handle_effects trivial
    exact heffects.invariant (P := fun x => t ≤ x.log.currentTerm) h.2.ge
      fun x y hx hxy => hx.trans hxy.term_le
  have hhandles := n.handles_handle rpc
  generalize (n.handle rpc).1 = n' at hterm hhandles ⊢
  cases hhandles with
  | refuse => exact .inl (.of_eq h ha rfl rfl (Nat.le_refl _))
  | vote req =>
      have hsame := SameData.castVote n req
      refine .inl ⟨⟨(castVote_role req).trans h.1, (castVote_currentTerm req).trans h.2⟩,
        .of_eq ha hsame.entries hsame.snapshotIndex, ?_⟩
      unfold castVote
      split <;> exact Nat.le_refl _
  | voteLater req => exact .inr (.of_follower hterm (castVote_role req))
  | reject | covered | install => exact .inr (.of_follower hterm rfl)
  | accept => exact .inr (.of_follower hterm (applyCommittedEntries_role _))

theorem InOffice.callback (h : n.InOffice t) (ha : n.log.Aligned) (peer : NodeId) (ans : Answer) :
    n.Continues t (n.callback peer ans).1 ∨ (n.callback peer ans).1.Past t := by
  have hcalls := n.callsBack_callback peer ans
  generalize (n.callback peer ans).1 = n', (n.callback peer ans).2 = sent at hcalls ⊢
  cases hcalls with
  | ignore | track => exact .inl (.of_eq h ha rfl rfl (Nat.le_refl _))
  | follow _ u =>
      refine .inr (.of_follower ?_ rfl)
      rw [← h.2]
      exact (SameData.becomeFollower n u 0).term_le
  | count _ _ _ hcandidate | win _ _ _ hcandidate =>
      rw [h.1] at hcandidate
      contradiction
  | advance =>
      exact .inl (.of_eq h ha (tryAdvanceCommitIndex_log _) (tryAdvanceCommitIndex_role _)
        (le_tryAdvanceCommitIndex (Nat.le_refl _)))

/-- A follower comes to stand or to lead only in a later term. -/
theorem role_of_follower_handle (h : n.role = .follower) (rpc : Rpc) :
    (n.handle rpc).1.role = .follower := by
  have hhandles := n.handles_handle rpc
  generalize (n.handle rpc).1 = n' at hhandles
  cases hhandles with
  | refuse => exact h
  | vote req => exact (castVote_role req).trans h
  | voteLater req => exact castVote_role req
  | reject | covered | install => rfl
  | accept => exact applyCommittedEntries_role _

theorem role_of_follower_callback (h : n.role = .follower) (peer : NodeId) (ans : Answer) :
    (n.callback peer ans).1.role = .follower := by
  have hcalls := n.callsBack_callback peer ans
  generalize (n.callback peer ans).1 = n', (n.callback peer ans).2 = sent at hcalls
  cases hcalls with
  | ignore | track => exact h
  | follow => rfl
  | count _ _ _ hcandidate | win _ _ _ hcandidate =>
      rw [h] at hcandidate
      contradiction
  | advance => exact (tryAdvanceCommitIndex_role _).trans h

end Functions

end RaftNode

/-! ## Along a run -/

namespace Cluster

variable [StateMachine σ] {c c' : Cluster σ} {a : Action} {t : Nat} {b : NodeId}

/-- Terms never go down, as long as the files are up to date. -/
theorem term_le_of_synced (h : (c.nodes b).log.Synced) (hstep : c.step a = some c') :
    (c.nodes b).log.currentTerm ≤ (c'.nodes b).log.currentTerm := by
  rcases step_effects hstep b with ⟨-, heq⟩ | heffects
  · have hlog : (c'.nodes b).log = (c.nodes b).log := by
      rw [heq]
      exact h
    rw [hlog]
  · exact heffects.invariant (P := fun x => (c.nodes b).log.currentTerm ≤ x.log.currentTerm)
      (Nat.le_refl _) fun x y hx hxy => hx.trans hxy.term_le

/-- A leader goes on in its term or is done with it. -/
theorem AlignedInv.inOffice_step (h : c.AlignedInv) (hstep : c.step a = some c')
    (hoffice : (c.nodes b).InOffice t) :
    (c.nodes b).Continues t (c'.nodes b) ∨ (c'.nodes b).Past t := by
  have ha := (h.nodes b).1
  have hterm := term_le_of_synced (h.nodes b).2 hstep
  rw [hoffice.2] at hterm
  obtain heq | ⟨sent, hown⟩ | ⟨call, -, -, heq⟩ | ⟨i, r, -, -, -, heq⟩ := step_node hstep b
  · rw [heq]
    exact .inl (.of_eq hoffice ha rfl rfl (Nat.le_refl _))
  · -- a leader that restarts follows in its old term, and one that leads does not stand
    obtain ⟨-, heq, -⟩ | ⟨-, hrole, -, -⟩ | ⟨heq, -⟩ | ⟨data, type, heq, -⟩ | ⟨heq, -⟩ |
      ⟨heq, -⟩ := ownStep_cases hown
    · rw [heq] at hterm ⊢
      exact .inr (.of_follower hterm rfl)
    · exact absurd hoffice.1 hrole
    · rw [heq]
      exact .inl (.of_eq hoffice ha rfl rfl (Nat.le_refl _))
    · rw [heq]
      exact .inl (.propose hoffice ha data type)
    · rw [heq]
      exact .inl (.forceSnapshot hoffice ha)
    · rw [heq]
      rcases (c.nodes b).maybeSnapshot_cases with heq | heq
      · rw [heq]
        exact .inl (.of_eq hoffice ha rfl rfl (Nat.le_refl _))
      · rw [heq]
        exact .inl (.forceSnapshot hoffice ha)
  · rw [heq]
    exact hoffice.handle ha call.rpc
  · rw [heq]
    exact hoffice.callback ha r.target r.answer

/-- A follower stays one until it stands for election. -/
theorem role_of_follower_step (hstep : c.step a = some c') (hrole : (c.nodes b).role = .follower) :
    (c'.nodes b).role = .follower ∨
      a = .timeout b ∧ (c'.nodes b).log.currentTerm = (c.nodes b).log.currentTerm + 1 := by
  obtain heq | ⟨sent, hown⟩ | ⟨call, -, -, heq⟩ | ⟨i, r, -, -, -, heq⟩ := step_node hstep b
  · exact .inl (by rw [heq, hrole])
  · obtain ⟨-, heq, -⟩ | ⟨rfl, -, heq, -⟩ | ⟨heq, -⟩ | ⟨data, type, heq, -⟩ | ⟨heq, -⟩ |
      ⟨heq, -⟩ := ownStep_cases hown
    · exact .inl (by rw [heq]; rfl)
    · exact .inr ⟨rfl, by rw [heq, ((c.nodes b).becomeCandidate_votes 0).2.1]⟩
    · exact .inl (by rw [heq, hrole])
    · exact .inl (by rw [heq, RaftNode.propose_role, hrole])
    · exact .inl (by rw [heq, RaftNode.forceSnapshot_role, hrole])
    · exact .inl (by rw [heq, RaftNode.maybeSnapshot_role, hrole])
  · exact .inl (by rw [heq]; exact RaftNode.role_of_follower_handle hrole _)
  · exact .inl (by rw [heq]; exact RaftNode.role_of_follower_callback hrole _ _)

/-- A node that is done with a term stays so, as long as its term does not go down. -/
theorem past_step (hterm : (c.nodes b).log.currentTerm ≤ (c'.nodes b).log.currentTerm)
    (hstep : c.step a = some c') (hpast : (c.nodes b).Past t) : (c'.nodes b).Past t := by
  rcases hpast with hlt | ⟨rfl, hrole⟩
  · exact .inl (hlt.trans_le hterm)
  · rcases role_of_follower_step hstep hrole with hfollower | ⟨-, hlater⟩
    · exact .of_follower hterm hfollower
    · refine .inl ?_
      rw [hlater]
      exact Nat.lt_succ_self _

end Cluster

variable [StateMachine σ]

/-- **Leader append-only**: between two moments of a run at which a node leads the
same term, its log has kept every entry that is not in a snapshot, what came on top
is of that term, and its commit index has not gone down. -/
theorem leader_append_only {members : List NodeId} {config : ClusterConfig} {threshold : Nat}
    {c c' : Cluster σ}
    (hrun : Run Cluster.step Cluster.AboveSnapshot (.init members config threshold) c)
    (hrun' : Run Cluster.step Cluster.AboveSnapshot c c') {n : NodeId}
    (hn : (c.nodes n).role = .leader) (hn' : (c'.nodes n).role = .leader)
    (hterm : (c'.nodes n).log.currentTerm = (c.nodes n).log.currentTerm) :
    (c.nodes n).log.Grown (c.nodes n).log.currentTerm (c'.nodes n).log ∧
      (c.nodes n).commitIndex ≤ (c'.nodes n).commitIndex := by
  have hinv := (Cluster.AlignedInv.init members config threshold).run hrun
  set t := (c.nodes n).log.currentTerm with ht
  -- the node has been in office since, or it is done with the term
  have hoffice : Cluster.AlignedInv c' ∧
      ((c.nodes n).Continues t (c'.nodes n) ∨ (c'.nodes n).Past t) := by
    refine hrun'.invariant (P := fun x => Cluster.AlignedInv x ∧
        ((c.nodes n).Continues t (x.nodes n) ∨ (x.nodes n).Past t))
      ⟨hinv, .inl (.of_eq ⟨hn, rfl⟩ (hinv.nodes n).1 rfl rfl (Nat.le_refl _))⟩ ?_
    rintro x a y ⟨hx, hoffice⟩ hok hstep
    refine ⟨hx.step hok hstep, hoffice.elim (fun hcontinues => ?_) fun hpast =>
      .inr (Cluster.past_step (Cluster.term_le_of_synced (hx.nodes n).2 hstep) hstep hpast)⟩
    exact (hx.inOffice_step hstep hcontinues.1).imp_left (hcontinues.trans (hx.nodes n).1)
  rcases hoffice.2 with hcontinues | hpast
  · exact hcontinues.2
  · exact absurd ⟨hn', hterm⟩ hpast.not_inOffice

/-- Node 1 proposes another command and takes a snapshot of what it has applied. -/
def compactedLeader : Cluster KvStore :=
  replay Cluster.step committed [.propose 1 putCommand, .forceSnapshot 1]

theorem leader_append_only_of_compactedLeader :
    (committed.nodes 1).log.Grown 1 (compactedLeader.nodes 1).log ∧
      (compactedLeader.nodes 1).log.snapshotIndex = 2 ∧
      (compactedLeader.nodes 1).log.lastIndex = 3 := by
  have hfirst : Run Cluster.step Cluster.AboveSnapshot threeNodes.start committed :=
    .trans (run_replay (by decide +kernel) : Run _ _ _ elected) (run_replay (by decide +kernel))
  have hsecond : Run Cluster.step Cluster.AboveSnapshot committed compactedLeader :=
    run_replay (by decide +kernel)
  have hgrown := leader_append_only hfirst hsecond (n := 1) (by decide +kernel) (by decide +kernel)
    (by decide +kernel)
  exact ⟨hgrown.1, by decide +kernel, by decide +kernel⟩

end KvRaft
