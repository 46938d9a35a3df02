import KvRaft.Effect
import KvRaft.Safety

/-!
# KvRaft.Aligned

The representation invariant of the log on every node: the entry at place `i`
carries the index `snapshotIndex + 1 + i`, which all queries of the log rely
on.

* `log_aligned_iff` — it holds as long as no accepted request with entries
  starts below the snapshot of its target, and the first such request breaks it;
* `stale_request_misaligns` — such a request occurs: the consistency check lets
  every request pass whose previous entry was compacted away.

Membership changes, snapshots, restarts and copied messages are all allowed.
-/

namespace KvRaft

open PersistentLog

variable {σ : Type}

namespace RaftNode

/-- If the request is accepted and carries entries, it starts at or above the
snapshot. -/
def StartsAboveSnapshot (n : RaftNode σ) (req : AppendEntriesReq) : Prop :=
  n.accepts req → req.entries ≠ [] → n.log.snapshotIndex ≤ req.prevLogIndex

def RpcAboveSnapshot (n : RaftNode σ) : Rpc → Prop
  | .appendEntries req => n.StartsAboveSnapshot req
  | _ => True

instance (n : RaftNode σ) : (rpc : Rpc) → Decidable (n.RpcAboveSnapshot rpc)
  | .appendEntries req =>
      inferInstanceAs (Decidable (n.accepts req → req.entries ≠ [] → _))
  | .requestVote .. => isTrue trivial
  | .installSnapshot _ => isTrue trivial

/-- What an aligned leader sends is consecutive. -/
theorem contiguous_of_broadcast [StateMachine σ] {n : RaftNode σ} (h : n.log.Aligned) {call : Call}
    (hcall : call ∈ n.broadcastAppendEntries) {req : AppendEntriesReq}
    (hreq : call.rpc = .appendEntries req) : IndexedFrom req.prevLogIndex req.entries := by
  obtain ⟨-, peer, rfl⟩ := of_mem_broadcast hcall
  simp only [replicateTo] at hreq
  split at hreq
  · contradiction
  · cases hreq
    exact h.entriesAfter (by simp only [appendEntriesReq]; omega) _

/-- The files stay up to date. -/
theorem Effect.synced [StateMachine σ] {handled : RaftNode σ → Rpc → Prop} {nd nd' : RaftNode σ}
    (h : nd.log.Synced) (he : Effect handled nd nd') : nd'.log.Synced := by
  cases he with
  | keep hsame => exact hsame.synced h
  | append => exact h.appendAndSync _
  | accept req => exact ((SameData.becomeFollower nd _ _).synced h).appendAndSync _
  | install req => exact ((SameData.becomeFollower nd _ _).synced h).compactUpTo _ _ _
  | compact =>
      rcases nd.forceSnapshot_cases with heq | heq <;> rw [heq]
      · exact h
      · exact h.compactUpTo _ _ _
  | apply => rwa [applyCommittedEntries_log]

/-- The log reaches the entry a request builds on, if the request passes the
consistency check. -/
theorem prevLogIndex_le {log : PersistentLog} {req : AppendEntriesReq} (h : log.Aligned)
    (hcheck : consistencyCheck log req = none) : req.prevLogIndex ≤ log.lastIndex := by
  rcases of_consistencyCheck hcheck with h0 | ⟨hsnap, -⟩ | ⟨hterm, -⟩
  · omega
  · rw [h.lastIndex]; omega
  · exact h.le_lastIndex hterm

/-- Every effect keeps the log aligned, if requests are consecutive and start
above the snapshot. -/
theorem Effect.aligned [StateMachine σ] {handled : RaftNode σ → Rpc → Prop}
    (hreq : ∀ nd req, handled nd (.appendEntries req) →
      IndexedFrom req.prevLogIndex req.entries ∧ nd.StartsAboveSnapshot req)
    {nd nd' : RaftNode σ} (h : nd.log.Aligned) (he : Effect handled nd nd') : nd'.log.Aligned := by
  cases he with
  | keep hsame => exact h.congr hsame.entries hsame.snapshotIndex
  | append data type =>
      refine h.appendAndSync ?_ (Nat.le_refl _) (.singleton rfl)
      rw [h.lastIndex]
      omega
  | accept req hh hacc =>
      have hsame := SameData.becomeFollower nd req.term req.leaderId
      have ha := h.congr hsame.entries hsame.snapshotIndex
      obtain ⟨hcontiguous, habove⟩ := hreq nd req hh
      -- heartbeats leave the log as it is; others have to follow it
      by_cases hnil : req.entries = []
      · simp only [acceptEntries, hnil]
        exact ha
      · refine ha.appendAndSync ?_ ?_ hcontiguous
        · rw [hsame.snapshotIndex]; exact habove hacc hnil
        · rw [ha.lastIndex, hsame.snapshotIndex, hsame.entries, ← h.lastIndex]
          exact prevLogIndex_le h hacc.2
  | install req =>
      have hsame := SameData.becomeFollower nd req.term req.leaderId
      exact (h.congr hsame.entries hsame.snapshotIndex).compactUpTo _ _ _
  | compact =>
      rcases nd.forceSnapshot_cases with heq | heq <;> rw [heq]
      · exact h
      · exact h.compactUpTo _ _ _
  | apply => rwa [applyCommittedEntries_log]

/-- Consecutive entries that start below the snapshot misalign the log. -/
theorem not_aligned_handle [StateMachine σ] {n : RaftNode σ} {req : AppendEntriesReq}
    (hcontiguous : IndexedFrom req.prevLogIndex req.entries) (hacc : n.accepts req)
    (hne : req.entries ≠ []) (hlt : req.prevLogIndex < n.log.snapshotIndex) :
    ¬ (n.handle (.appendEntries req)).1.log.Aligned := by
  intro haligned
  have hsame := SameData.becomeFollower n req.term req.leaderId
  change (n.handleAppendEntries req).1.log.Aligned at haligned
  rw [handleAppendEntries_log hacc] at haligned
  obtain ⟨e, es, hes⟩ := List.exists_cons_of_ne_nil hne
  have hfirst : e.index = req.prevLogIndex + 1 := hcontiguous 0 e (by rw [hes]; rfl)
  have hentries := appendAndSync_entries_of_lt (hsame.snapshotIndex ▸ hlt) hne hcontiguous
  have hat := haligned 0 e (by rw [hentries, hes]; rfl)
  rw [appendAndSync_snapshotIndex, hsame.snapshotIndex] at hat
  omega

/-! ## Batches of an aligned log -/

theorem collect_indexed {log : PersistentLog} (h : log.Aligned) (last fuel : Nat) :
    IndexedFrom last (collect log last fuel) := by
  induction fuel generalizing last with
  | zero => exact .nil last
  | succ fuel ih =>
      rw [collect]
      cases he : log.entryAt (last + 1) with
      | none => exact .nil last
      | some e => exact (IndexedFrom.singleton (h.of_entryAt he).1).append (ih (last + 1))

/-- A batch that reaches the index of an entry of the log holds the entry. -/
theorem mem_toApply {n : RaftNode σ} (h : n.log.Aligned) {e : LogEntry} (he : e ∈ n.log.entries)
    (hlt : n.lastApplied < e.index) (hle : e.index ≤ n.lastApplied + n.toApply.length) :
    e ∈ n.toApply := by
  have hat := List.getElem?_eq_getElem (l := n.toApply) (i := e.index - n.lastApplied - 1)
      (by omega)
  have hidx := collect_indexed h n.lastApplied _ _ _ hat
  have hmem := List.mem_of_getElem? hat
  have heq := h.eq_of_index he (mem_collect hmem) (by rw [hidx]; omega)
  rw [heq]
  exact hmem

end RaftNode

namespace Cluster

/-- The request that is delivered, if any, starts above the snapshot of its
target. -/
def AboveSnapshot (c : Cluster σ) (a : Action) : Prop :=
  ∀ call ∈ c.delivered a, (c.nodes call.target).RpcAboveSnapshot call.rpc

instance (c : Cluster σ) (a : Action) : Decidable (c.AboveSnapshot a) :=
  inferInstanceAs (Decidable (∀ call ∈ c.delivered a, _))

/-- Logs are aligned, files are up to date, and requests are consecutive. -/
structure AlignedInv (c : Cluster σ) : Prop where
  nodes : ∀ n, (c.nodes n).log.Aligned ∧ (c.nodes n).log.Synced
  contiguous : ∀ call req, c.OnItsWay call → call.rpc = .appendEntries req →
    IndexedFrom req.prevLogIndex req.entries

namespace AlignedInv

variable [StateMachine σ] {c c' : Cluster σ} {a : Action}

theorem init (members : List NodeId) (config : ClusterConfig) (threshold : Nat) :
    AlignedInv (Cluster.init members config threshold : Cluster σ) where
  nodes := fun _ => ⟨.nil 0, rfl⟩
  contiguous := fun _ _ h => nomatch h

omit [StateMachine σ] in
/-- The request a node handles is consecutive and starts above its snapshot. -/
theorem requests (h : c.AlignedInv) (hok : c.AboveSnapshot a) {b : NodeId} (nd : RaftNode σ)
    (req : AppendEntriesReq) (hh : c.Handled a b nd (.appendEntries req)) :
    IndexedFrom req.prevLogIndex req.entries ∧ nd.StartsAboveSnapshot req := by
  obtain ⟨rfl, call, hcall, rfl, hreq⟩ := hh
  have habove := hok call hcall
  rw [hreq] at habove
  exact ⟨h.contiguous call req (onItsWay_of_delivered hcall) hreq, habove⟩

theorem step (h : c.AlignedInv) (hok : c.AboveSnapshot a) (hstep : c.step a = some c') :
    c'.AlignedInv := by
  have hnodes : ∀ n, (c'.nodes n).log.Aligned ∧ (c'.nodes n).log.Synced := by
    intro n
    rcases step_effects hstep n with ⟨-, heq⟩ | heff
    · have hlog : (c'.nodes n).log = (c.nodes n).log := by
        rw [heq]
        exact (h.nodes n).2
      rw [hlog]
      exact h.nodes n
    · refine heff.invariant (P := fun nd => nd.log.Aligned ∧ nd.log.Synced) (h.nodes n)
        fun x y hx hxy => ⟨hxy.aligned (h.requests hok) hx.1, hxy.synced hx.2⟩
  refine ⟨hnodes, fun call req hway hreq => ?_⟩
  rcases step_calls hstep hway with hway | hvote | ⟨b, hb⟩
  · exact h.contiguous call req hway hreq
  · rw [Call.isVote, hreq] at hvote
    contradiction
  · exact RaftNode.contiguous_of_broadcast (hnodes b).1 hb hreq

theorem run (h : c.AlignedInv) (hrun : Run Cluster.step AboveSnapshot c c') : c'.AlignedInv :=
  hrun.invariant h fun _ _ _ h hok hstep => h.step hok hstep

end AlignedInv

end Cluster

variable [StateMachine σ]

/-- **The log is aligned** in every state of a run whose requests start above
the snapshots of their targets, so that `at(k)` is the entry with index `k` and
`termAt(k)` its term; and the next step keeps all logs aligned exactly if it is
such a step, too. -/
theorem log_aligned_iff {members : List NodeId} {config : ClusterConfig} {threshold : Nat}
    {c : Cluster σ}
    (hrun : Run Cluster.step Cluster.AboveSnapshot (.init members config threshold) c) :
    (∀ n, (c.nodes n).log.Aligned ∧ ∀ k e, (c.nodes n).log.entryAt k = some e →
        e.index = k ∧ (c.nodes n).log.termAt k = e.term) ∧
      ∀ a c', c.step a = some c' →
        ((∀ n, (c'.nodes n).log.Aligned) ↔ c.AboveSnapshot a) := by
  have hinv := (Cluster.AlignedInv.init members config threshold).run hrun
  refine ⟨fun n => ⟨(hinv.nodes n).1, fun k e he => (hinv.nodes n).1.of_entryAt he⟩,
    fun a c' hstep => ⟨fun hall call hcall => ?_, fun hok n => ((hinv.step hok hstep).nodes n).1⟩⟩
  have htarget := Cluster.step_delivered hstep hcall
  cases hrpc : call.rpc with
  | requestVote | installSnapshot => trivial
  | appendEntries req =>
      intro hacc hne
      -- a request from below the snapshot misplaces its entries
      by_contra hlt
      refine RaftNode.not_aligned_handle (hinv.contiguous call req
        (Cluster.onItsWay_of_delivered hcall) hrpc) hacc hne (by omega) ?_
      rw [← hrpc, ← htarget]
      exact hall call.target

/-- Node 2 takes a snapshot of the two entries it has applied and gets a third. -/
def appendedAbove : Cluster KvStore :=
  replay Cluster.step replicated
    [.forceSnapshot 2, .propose 1 putCommand, .heartbeat 1, .deliver 5]

/-- The third entry is where `at(3)` looks for it.  The request with the first entry
alone is still on its way, and whether it keeps the logs aligned is up to the condition. -/
theorem log_aligned_of_appendedAbove :
    (appendedAbove.nodes 2).log.snapshotIndex = 2 ∧
      (appendedAbove.nodes 2).log.entryAt 3 = some ⟨1, 3, .command, putCommand⟩ ∧
      (appendedAbove.nodes 2).log.termAt 3 = 1 ∧
      ((∀ n, ((replay Cluster.step appendedAbove [.deliver 1]).nodes n).log.Aligned) ↔
        appendedAbove.AboveSnapshot (.deliver 1)) := by
  have hrun : Run Cluster.step Cluster.AboveSnapshot threeNodes.start appendedAbove :=
    .trans (run_replay (by decide +kernel) : Run _ _ _ elected)
      (.trans (run_replay (by decide +kernel) : Run _ _ _ committed)
        (.trans (run_replay (by decide +kernel) : Run _ _ _ replicated)
          (run_replay (by decide +kernel))))
  have hat : (appendedAbove.nodes 2).log.entryAt 3 = some ⟨1, 3, .command, putCommand⟩ := by
    decide +kernel
  obtain ⟨haligned, hstep⟩ := log_aligned_iff hrun
  exact ⟨by decide +kernel, hat, ((haligned 2).2 3 _ hat).2, hstep (.deliver 1) _ rfl⟩

/-- Node 2 takes a snapshot of the two entries it has applied; then the request
with the first of them reaches it. -/
def misaligned : Cluster KvStore := replay Cluster.step replicated [.forceSnapshot 2, .deliver 1]

/-- A delayed request is accepted below the snapshot, and `at(3)` is then the
entry with index 1. -/
theorem stale_request_misaligns :
    Run Cluster.step Cluster.Steady threeNodes.start misaligned ∧
      (misaligned.nodes 2).log.snapshotIndex = 2 ∧
      (misaligned.nodes 2).log.entries = [⟨1, 1, .noOp, []⟩] ∧
      (misaligned.nodes 2).log.entryAt 3 = some ⟨1, 1, .noOp, []⟩ ∧
      ¬ (misaligned.nodes 2).log.Aligned := by
  have hat : (misaligned.nodes 2).log.entryAt 3 = some ⟨1, 1, .noOp, []⟩ := by decide +kernel
  refine ⟨?_, by decide +kernel, by decide +kernel, hat, fun h => ?_⟩
  · exact .trans (run_replay (by decide +kernel) : Run _ _ _ elected)
      (.trans (run_replay (by decide +kernel) : Run _ _ _ committed)
        (.trans (run_replay (by decide +kernel) : Run _ _ _ replicated)
          (run_replay (by decide +kernel))))
  · have := (h.of_entryAt hat).1
    contradiction

end KvRaft
