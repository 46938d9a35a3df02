import KvRaft.Effect
import KvRaft.Safety

/-!
# KvRaft.TruthfulReply

What a follower says when it accepts an AppendEntries request: its log agrees
with the log its leader held when it sent the request, up to the match index it
returns (`success_is_truthful`).

Only the term of the previous entry is compared; that everything below it is the
same is log matching, which the protocol behind the cluster knows (`Sim`).  A
request whose previous index lies beyond the leader's log names no term and is
refused.
-/

namespace KvRaft

open Replica

variable {σ : Type}

/-- An accepted request leaves a log that is the leader's up to the end of the
request. -/
theorem Tracks.accepted_log [StateMachine σ] {voters : List NodeId} {s : Ghost} {n sender : NodeId}
    {nd : RaftNode σ} (h : Tracks .logs voters s n nd) {req : AppendEntriesReq}
    (hc : AppendCall .logs voters s sender n req) (hacc : nd.accepts req) :
    ∃ full, (nd.handleAppendEntries req).1.log.Represents full ∧
      (nd.handleAppendEntries req).1.log.snapshotIndex = 0 ∧
      RaftNode.newLast req ≤ full.length ∧
      full.take (RaftNode.newLast req) = (s.hist req.term).take (RaftNode.newLast req) := by
  have hk : Scope.logs ≠ .votes := nofun
  have hf := h.becomeFollower req.term req.leaderId
  have hraise : Moves n noVote s (s.raise n req.term) := .raise s n req.term
  have hcf := hc.mono hraise.ext
  have hcheck := (nd.consistencyCheck_becomeFollower req.term req.leaderId req).trans hacc.2
  have hterm := h.raise_term hacc.1
  -- the follower's log agrees with the leader's up to the start of the request
  obtain ⟨-, hlen, htake⟩ := hf.agrees hk hterm hcf hcheck
  rw [hterm] at hlen htake
  obtain ⟨hidx, hlast, hmlen, hmtake⟩ := hf.take_newLast hk hcf hlen
  have hrep := (hf.node.logs hk).log
  have hsnap := (hf.node.uncompacted rfl).2
  have hhist : (s.raise n req.term).hist = s.hist := rfl
  rw [hhist] at hlen htake hmlen hmtake
  have hprev : req.prevLogIndex ≤ ((s.raise n req.term).log n).length := by
    have := congrArg List.length htake
    rw [List.length_take, List.length_take] at this
    omega
  rw [RaftNode.handleAppendEntries_log hacc, PersistentLog.appendAndSync_snapshotIndex]
  -- a heartbeat appends nothing, other requests bring the leader's entries
  by_cases hnil : req.entries = []
  · rw [hnil, List.length_nil, Nat.add_zero] at hlast
    rw [hnil, hlast]
    exact ⟨_, hrep, hsnap, hprev, htake⟩
  · have hrep' := hrep.appendAndSync (by omega) hprev hnil hidx
    rw [htake, ← hmtake] at hrep'
    refine ⟨_, hrep', hsnap, ?_, ?_⟩
    · rw [List.length_take]
      omega
    · rw [List.take_take, Nat.min_self]

/-- A successful answer means that the request was accepted, and returns the end of
the request. -/
theorem RaftNode.of_success [StateMachine σ] {nd : RaftNode σ} {req : AppendEntriesReq}
    (h : (nd.handleAppendEntries req).2.success = true) :
    nd.accepts req ∧ (nd.handleAppendEntries req).2.matchIndex = newLast req := by
  unfold handleAppendEntries at h ⊢
  split at h
  · cases h
  · next hterm =>
    rw [if_neg hterm]
    simp only [consistencyCheck_becomeFollower] at h ⊢
    split at h
    · cases h
    · next hcheck =>
      exact ⟨⟨Nat.le_of_not_lt hterm, hcheck⟩, rfl⟩

/-- An accepted request lies within the log of its leader, whenever it was sent. -/
theorem Slice.of_accepts {s : Ghost} {nd : RaftNode σ} {req : AppendEntriesReq}
    (h : Slice s req) (hacc : nd.accepts req) (hsnap : nd.log.snapshotIndex = 0) :
    req.prevLogIndex ≤ (s.hist req.term).length := by
  rcases h with ⟨hlen, -⟩ | ⟨hpos, hzero, -⟩
  · exact hlen
  · rcases RaftNode.of_consistencyCheck hacc.2 with h0 | ⟨hle, -⟩ | ⟨hne, heq⟩
    · omega
    · omega
    · exact absurd (heq.trans hzero) hne

variable [StateMachine σ]

/-- Whatever is on its way was sent at some point of the run. -/
theorem Trace.sent {ok : Cluster σ → Action → Prop} {c₀ c : Cluster σ}
    {trace : List (Taken (Cluster σ) Action)} (r : Trace Cluster.step ok c₀ trace c)
    (h0 : ∀ call, ¬ c₀.OnItsWay call) {call : Call} (hway : c.OnItsWay call) :
    ∃ x ∈ trace, call ∈ x.before.sends x.action := by
  refine r.invariant (P := fun trace c => ∀ call, c.OnItsWay call →
    ∃ x ∈ trace, call ∈ x.before.sends x.action) (fun call h => absurd h (h0 call)) ?_ call hway
  intro trace c a c' ih _ hstep call hway
  rcases Cluster.step_onItsWay hstep hway with hold | hsent
  · obtain ⟨x, hx, hsent⟩ := ih call hold
    exact ⟨x, List.mem_append_left _ hx, hsent⟩
  · exact ⟨_, List.mem_append_right _ List.mem_cons_self, hsent⟩

/-- The log of a node and the log of the leader that sent an accepted request, in
terms of the protocol. -/
theorem Sim.agree_of_accepts {voters : List NodeId} {c₁ c : Cluster σ} {s₁ s : Ghost}
    (h₁ : Sim .logs voters c₁ s₁) (h : Sim .logs voters c s) (hx : Extends s₁ s) {call : Call}
    {req : AppendEntriesReq} (hreq : call.rpc = .appendEntries req) (hsent : call ∈ c₁.calls)
    (hacc : (c.nodes call.target).accepts req) (hlead : (c₁.nodes call.sender).role = .leader)
    (hterm : (c₁.nodes call.sender).log.currentTerm = req.term) :
    RaftNode.newLast req ≤ ((c.nodes call.target).handleAppendEntries req).1.log.entries.length ∧
      ∀ i, 1 ≤ i → i ≤ RaftNode.newLast req → ∃ e,
        ((c.nodes call.target).handleAppendEntries req).1.log.entryAt i = some e ∧
          (c₁.nodes call.sender).log.entryAt i = some e := by
  have hk : Scope.logs ≠ .votes := nofun
  have hcall : AppendCall .logs voters s₁ call.sender call.target req := by
    have := h₁.calls call hsent
    rwa [CallInv, hreq] at this
  -- the slice was taken within the leader's log, or it would not have been accepted
  have hin := (hcall.slice hk).of_accepts hacc ((h.node call.target).uncompacted rfl).2
  obtain ⟨-, -, hlen, -⟩ := (h₁.tracks call.target).take_newLast hk hcall hin
  obtain ⟨full, hrep, hsnap, hfull, htake⟩ :=
    (h.tracks call.target).accepted_log (hcall.mono hx) hacc
  rw [take_hist_eq hx hlen] at htake
  -- the leader's log when it sent the request
  have hleader := h₁.leader hlead
  have hnode := h₁.node call.sender
  have hlog : s₁.log call.sender = s₁.hist req.term := by
    rw [hterm] at hleader
    exact ((h₁.global.logs hk).lead _ _ hleader (hnode.votes.term.symm.trans hterm)).1
  have hsnap₁ := (hnode.uncompacted rfl).2
  have hrep₁ := (hnode.logs hk).log
  rw [hlog] at hrep₁
  refine ⟨by rwa [hrep.entries, hsnap, List.drop_zero], fun i hpos hi => ?_⟩
  have hlt : i - 1 < RaftNode.newLast req := by omega
  -- both logs are the leader's history up to the acknowledged index
  have hsame : full[i - 1]? = (s₁.hist req.term)[i - 1]? := by
    rw [← List.getElem?_take_of_lt hlt, htake, List.getElem?_take_of_lt hlt]
  have hat : full[i - 1]? = some full[i - 1] := List.getElem?_eq_getElem (by omega)
  refine ⟨full[i - 1], ?_, ?_⟩
  · rw [hrep.entryAt (by omega), hat]
  · rw [hrep₁.entryAt (by omega), ← hsame, hat]

/-- **A success reply is truthful when sent**: the request was sent at some point
of the run, its sender then led its term, and up to the match index that is
returned the follower's log is the log the sender held then. -/
theorem success_is_truthful (S : Setup) {trace : List (Taken (Cluster σ) Action)} {c c' : Cluster σ}
    (r : Trace Cluster.step (fun c a => c.Steady a ∧ c.NoSnapshots a) S.start trace c)
    {a : Action} (hstep : c.step a = some c') {call : Call} (hcall : c.delivered a = some call)
    {req : AppendEntriesReq} (hreq : call.rpc = .appendEntries req)
    (hsuccess : ((c.nodes call.target).handleAppendEntries req).2.success = true) {m : Nat}
    (hmatch : ((c.nodes call.target).handleAppendEntries req).2.matchIndex = m) :
    (∃ x ∈ trace, call ∈ x.before.sends x.action) ∧
      ∀ x ∈ trace, call ∈ x.before.sends x.action →
        (x.after.nodes call.sender).role = .leader ∧
        (x.after.nodes call.sender).log.currentTerm = req.term ∧
        m ≤ (c'.nodes call.target).log.entries.length ∧
        ∀ i, 1 ≤ i → i ≤ m → ∃ e, (c'.nodes call.target).log.entryAt i = some e ∧
          (x.after.nodes call.sender).log.entryAt i = some e := by
  obtain ⟨hacc, hnew⟩ := RaftNode.of_success hsuccess
  have hnode := Cluster.step_delivered hstep hcall
  rw [hreq] at hnode
  refine ⟨r.sent nofun (Cluster.onItsWay_of_delivered hcall), fun x hx hsent => ?_⟩
  obtain ⟨hbefore, hok, htaken, hafter⟩ := r.of_mem hx
  have hfollowed : ∀ (c : Cluster σ) a, c.Steady a ∧ c.NoSnapshots a → c.Followed .logs a :=
    fun _ _ h => .logs h.1 h.2
  -- the request is looked at twice: when it was sent, and now
  obtain ⟨s₁, h₁⟩ := Sim.of_run S ((Run.snoc hbefore hok htaken).mono hfollowed)
  obtain ⟨s, hext, h⟩ := h₁.run S.voters_nodup S.voters_ne_nil (hafter.mono hfollowed)
  obtain ⟨hcalls, hvote | ⟨b, hb⟩⟩ := Cluster.mem_sends htaken hsent
  · rw [Call.isVote, hreq] at hvote
    cases hvote
  · -- only a leader's broadcast sends such a request, in its own term
    obtain ⟨hlead, peer, rfl⟩ := RaftNode.of_mem_broadcast hb
    have hsender : ((x.after.nodes b).replicateTo peer).sender = b := (h₁.node b).votes.id
    have hterm : (x.after.nodes b).log.currentTerm = req.term := by
      simp only [RaftNode.replicateTo] at hreq
      split at hreq
      · cases hreq
      · cases hreq
        rfl
    rw [← hsender] at hlead hterm
    have hagree := h₁.agree_of_accepts h hext hreq hcalls hacc hlead hterm
    rw [← hmatch, hnew, hnode]
    exact ⟨hlead, hterm, hagree⟩

/-- Node 1 is elected, proposes a command and sends it along with its no-op. -/
def offered : List Action :=
  [.timeout 1, .deliver 0, .reply 0, .propose 1 putCommand, .heartbeat 1]

/-- The request with both entries. -/
def offer : AppendEntriesReq :=
  ⟨1, 1, 0, 0, [⟨1, 1, .noOp, []⟩, ⟨1, 2, .command, putCommand⟩], 0⟩

theorem success_is_truthful_of_offered :
    ∃ x ∈ traced Cluster.step (threeNodes.start : Cluster KvStore) offered, ∃ e,
      ((replay Cluster.step (replay Cluster.step threeNodes.start offered)
        [.deliver 3] : Cluster KvStore).nodes 2).log.entryAt 2 = some e ∧
        (x.after.nodes 1).log.entryAt 2 = some e := by
  have r : Trace Cluster.step (fun c a => c.Steady a ∧ c.NoSnapshots a)
      (threeNodes.start : Cluster KvStore) (traced Cluster.step threeNodes.start offered)
      (replay Cluster.step threeNodes.start offered) := trace_replay (by decide +kernel)
  have hcall : (replay Cluster.step threeNodes.start offered : Cluster KvStore).delivered
      (.deliver 3) = some ⟨1, 2, 0, .appendEntries offer⟩ := by decide +kernel
  have htruthful := success_is_truthful threeNodes r (step_replay (by decide +kernel)) hcall rfl
    (by decide +kernel) (m := 2) (by decide +kernel)
  obtain ⟨⟨x, hx, hsent⟩, hall⟩ := htruthful
  exact ⟨x, hx, (hall x hx hsent).2.2.2 2 (by decide) (by decide)⟩

end KvRaft
