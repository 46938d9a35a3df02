import KvRaft.Aligned
import KvRaft.KvServer

/-!
# KvRaft.Writes

Acknowledged writes.  `dispatch` proposes a command, waits until its index is
applied and answers with the result found there; neither `waitApplied` nor
`dispatch` looks at the term the entry was proposed in.

* `acknowledged_write` — the answer is that of the proposed entry, if every
  request the node handles in the meantime leaves that entry in place
  (`Cluster.KeepsEntry`);
* `replaced_write_acknowledged` — otherwise a client is told that its write
  succeeded when another leader's entry was applied at its index.
-/

namespace KvRaft

open PersistentLog

variable {σ : Type}

namespace RaftNode

/-- Handling `rpc` does not replace or skip the entry `e` before it is applied. -/
def KeepsEntry (n : RaftNode σ) (e : LogEntry) : Rpc → Prop
  | .requestVote .. => True
  | .appendEntries req => n.accepts req → req.entries ≠ [] → n.lastApplied < e.index →
      req.prevLogIndex < e.index → e ∈ req.entries
  | .installSnapshot req => n.log.currentTerm ≤ req.term →
      n.log.snapshotIndex < req.lastIncludedIndex → n.lastApplied < e.index →
      req.lastIncludedIndex < e.index

instance (n : RaftNode σ) (e : LogEntry) : (rpc : Rpc) → Decidable (n.KeepsEntry e rpc)
  | .requestVote .. => isTrue trivial
  | .appendEntries req =>
      inferInstanceAs (Decidable (n.accepts req → req.entries ≠ [] → _ → _ → _))
  | .installSnapshot req => inferInstanceAs (Decidable (_ ≤ req.term → _ → _ → _))

/-! ## The entry a client waits for -/

variable [StateMachine σ]

/-- Since `old` was applied: the entry `e` is in the log and not yet applied,
or it was applied and its result can be picked up. -/
structure Waiting (e : LogEntry) (old : List (Applied σ)) (n : RaftNode σ) : Prop where
  aligned : n.log.Aligned
  since : ∃ new, n.applied = old ++ new ∧
    ((n.lastApplied < e.index ∧ e ∈ n.log.entries ∧ ∀ o ∈ new, o.entry.index < e.index) ∨
      (e.index ≤ n.lastApplied ∧
        (∃ o ∈ new, o.entry = e ∧ n.pendingResults.lookup e.index = some o.result) ∧
        ∀ o ∈ new, o.entry.index = e.index → o.entry = e))

namespace Waiting

variable {e : LogEntry} {old : List (Applied σ)} {n n' : RaftNode σ}

/-- A change that applies nothing and leaves the entry in place. -/
theorem of_kept (h : Waiting e old n) (haligned : n'.log.Aligned)
    (happlied : n'.applied = n.applied)
    (hresults : n'.pendingResults = n.pendingResults) (hlast : n.lastApplied ≤ n'.lastApplied)
    (hkept : n.lastApplied < e.index → e ∈ n.log.entries →
      n'.lastApplied < e.index ∧ e ∈ n'.log.entries) : Waiting e old n' := by
  obtain ⟨new, hnew, hstate⟩ := h.since
  refine ⟨haligned, new, happlied.trans hnew, ?_⟩
  rcases hstate with ⟨hlt, hmem, hbelow⟩ | ⟨hle, hdone, honly⟩
  · obtain ⟨hlt', hmem'⟩ := hkept hlt hmem
    exact .inl ⟨hlt', hmem', hbelow⟩
  · rw [← hresults] at hdone
    exact .inr ⟨by omega, hdone, honly⟩

/-- Applying a batch applies the entry at most once, and keeps its result. -/
theorem applyCommittedEntries (h : Waiting e old n) : Waiting e old n.applyCommittedEntries := by
  obtain ⟨haligned, new, hnew, hstate⟩ := h
  obtain ⟨sm, config, ni, mi, pr, records, heq, hrecords, hkept, hresults⟩ :=
    n.applyCommittedEntries_eq
  have hindexed := collect_indexed haligned n.lastApplied (n.commitIndex - n.lastApplied)
  have hbatch : ∀ o ∈ records, o.entry ∈ n.toApply := fun o ho => by
    rw [← hrecords]
    exact List.mem_map_of_mem ho
  have hrange : ∀ o ∈ records, n.lastApplied < o.entry.index ∧
      o.entry.index ≤ n.lastApplied + n.toApply.length := fun o ho => by
    obtain ⟨hlt, hat⟩ := hindexed.getElem?_of_mem (hbatch o ho)
    have := (List.getElem?_eq_some_iff.mp hat).1
    exact ⟨hlt, by rw [toApply]; omega⟩
  rw [heq]
  refine ⟨haligned, new ++ records, by rw [hnew, List.append_assoc], ?_⟩
  rcases hstate with ⟨hlt, hmem, hbelow⟩ | ⟨hle, ⟨o, ho, hoe, hres⟩, honly⟩
  · by_cases hreach : e.index ≤ n.lastApplied + n.toApply.length
    · -- the entry is in the batch
      right
      have hin := mem_toApply haligned hmem hlt hreach
      rw [← hrecords] at hin
      obtain ⟨o, ho, hoe⟩ := List.mem_map.mp hin
      refine ⟨hreach, ⟨o, List.mem_append_right new ho, hoe, ?_⟩, fun o' ho' hidx => ?_⟩
      · rw [← hoe]
        exact hresults hindexed.nodup_index o ho
      · rcases List.mem_append.mp ho' with ho' | ho'
        · exact absurd hidx (Nat.ne_of_lt (hbelow o' ho'))
        · exact (haligned.eq_of_index hmem (mem_collect (hbatch o' ho')) hidx.symm).symm
    · -- the batch ends below the entry
      left
      refine ⟨Nat.lt_of_not_le hreach, hmem, fun o ho => ?_⟩
      rcases List.mem_append.mp ho with ho | ho
      · exact hbelow o ho
      · have := (hrange o ho).2
        omega
  · -- the batch starts above the entry
    right
    refine ⟨Nat.le_trans hle (Nat.le_add_right _ _), ⟨o, List.mem_append_left records ho, hoe, ?_⟩,
      fun o' ho' hidx => ?_⟩
    · rw [← hres]
      refine hkept _ fun hin => ?_
      rw [← hrecords, List.map_map] at hin
      obtain ⟨o', ho', hidx⟩ := List.mem_map.mp hin
      have := (hrange o' ho').1
      simp only [Function.comp] at hidx
      omega
    · rcases List.mem_append.mp ho' with ho' | ho'
      · exact honly o' ho' hidx
      · have := (hrange o' ho').1
        omega

end Waiting

/-- Every effect keeps the node waiting for the entry, if requests keep the log
aligned and the entry in place. -/
theorem Effect.waiting {handled : RaftNode σ → Rpc → Prop} {e : LogEntry} {old : List (Applied σ)}
    (hreq : ∀ nd req, handled nd (.appendEntries req) →
      IndexedFrom req.prevLogIndex req.entries ∧ nd.StartsAboveSnapshot req)
    (hkeeps : ∀ nd rpc, handled nd rpc → nd.KeepsEntry e rpc) {nd nd' : RaftNode σ}
    (h : Waiting e old nd) (he : Effect handled nd nd') : Waiting e old nd' := by
  have haligned' := he.aligned hreq h.aligned
  have ha := h.aligned
  cases he with
  | keep hsame =>
      refine h.of_kept haligned' hsame.applied hsame.pendingResults
        (Nat.le_of_eq hsame.lastApplied.symm) ?_
      rw [hsame.lastApplied, hsame.entries]
      exact And.intro
  | append data type =>
      refine h.of_kept haligned' rfl rfl (Nat.le_refl _) fun hlt hmem => ⟨hlt, ?_⟩
      -- a leader appends behind the entry
      have hle : nd.log.snapshotIndex ≤ nd.log.lastIndex := by
        rw [ha.lastIndex]
        omega
      change e ∈ (nd.log.appendAndSync [nd.newEntry data type]).entries
      rw [appendAndSync_entries hle (by simp) (.singleton rfl)]
      exact List.mem_append_left _ (ha.mem_take hmem (ha.index_le_lastIndex hmem))
  | accept req hh hacc =>
      have hsame := SameData.becomeFollower nd req.term req.leaderId
      refine h.of_kept haligned' hsame.applied hsame.pendingResults
        (Nat.le_of_eq hsame.lastApplied.symm)
        fun hlt hmem => ⟨by simpa only [acceptEntries, hsame.lastApplied] using hlt, ?_⟩
      change e ∈ ((nd.becomeFollower req.term req.leaderId).log.appendAndSync req.entries).entries
      -- a heartbeat cuts nothing
      by_cases hnil : req.entries = []
      · rw [hnil]
        exact hsame.entries.symm ▸ hmem
      · obtain ⟨hcontiguous, habove⟩ := hreq nd req hh
        rw [appendAndSync_entries (by rw [hsame.snapshotIndex]; exact habove hacc hnil) hnil
          hcontiguous, hsame.entries, hsame.snapshotIndex]
        -- an entry behind the start of the request has to be in the request
        by_cases hprev : req.prevLogIndex < e.index
        · exact List.mem_append_right _ (hkeeps nd _ hh hacc hnil hlt hprev)
        · exact List.mem_append_left _ (ha.mem_take hmem (Nat.le_of_not_lt hprev))
  | install req hh hterm hgt =>
      have hsame := SameData.becomeFollower nd req.term req.leaderId
      have hlast : ((nd.becomeFollower req.term req.leaderId).acceptSnapshot req).lastApplied =
          max nd.lastApplied req.lastIncludedIndex := by
        simp only [acceptSnapshot, hsame.lastApplied]
      refine h.of_kept haligned' hsame.applied hsame.pendingResults
        (by rw [hlast]; exact Nat.le_max_left _ _) fun hlt hmem => ?_
      -- a snapshot that covered the entry would skip it
      have hbelow := hkeeps nd _ hh hterm hgt hlt
      refine ⟨by rw [hlast]; exact Nat.max_lt.mpr ⟨hlt, hbelow⟩, ?_⟩
      change e ∈ ((nd.becomeFollower req.term req.leaderId).log.compactUpTo _ _ _).entries
      rw [compactUpTo_entries, hsame.entries, hsame.snapshotIndex]
      exact ha.mem_drop hmem hbelow
  | compact =>
      rcases nd.forceSnapshot_cases with heq | heq <;> rw [heq] at haligned' ⊢
      · exact h
      · -- the entry is above what was applied, and so above the snapshot
        refine h.of_kept haligned' rfl rfl (Nat.le_refl _) fun hlt hmem => ⟨hlt, ?_⟩
        change e ∈ (nd.log.compactUpTo _ _ _).entries
        rw [compactUpTo_entries]
        exact ha.mem_drop hmem hlt
  | apply => exact h.applyCommittedEntries

theorem Effect.incarnation {handled : RaftNode σ → Rpc → Prop} {nd nd' : RaftNode σ}
    (he : Effect handled nd nd') : nd'.incarnation = nd.incarnation := by
  cases he with
  | keep hsame => exact hsame.incarnation
  | append => rfl
  | compact => rcases nd.forceSnapshot_cases with heq | heq <;> rw [heq]
  | accept req | install req => exact (SameData.becomeFollower nd req.term req.leaderId).incarnation
  | apply =>
      obtain ⟨_, _, _, _, _, _, heq, -⟩ := nd.applyCommittedEntries_eq
      rw [heq]

/-- A node that has just proposed an entry waits for it. -/
theorem Waiting.of_propose {nd : RaftNode σ} (haligned : nd.log.Aligned) (hrole : nd.role = .leader)
    (hlast : nd.lastApplied ≤ nd.log.lastIndex) (data : Bytes) (type : EntryType) :
    Waiting (nd.newEntry data type) nd.applied (nd.propose data type).1 := by
  have hle : nd.log.snapshotIndex ≤ nd.log.lastIndex := by
    rw [haligned.lastIndex]
    omega
  have happended : Waiting (nd.newEntry data type) nd.applied
      { nd with log := nd.log.appendAndSync [nd.newEntry data type] } := by
    refine ⟨haligned.appendAndSync hle (Nat.le_refl _) (.singleton rfl), [],
      (List.append_nil _).symm, .inl ⟨Nat.lt_succ_of_le hlast, ?_, nofun⟩⟩
    change nd.newEntry data type ∈ (nd.log.appendAndSync _).entries
    rw [appendAndSync_entries hle (by simp) (.singleton rfl)]
    exact List.mem_append_right _ (List.mem_singleton_self _)
  have heff : Effects (fun _ _ => False) _ _ := tryAdvanceCommitIndex_effects
    { nd with log := nd.log.appendAndSync [nd.newEntry data type] }
  rw [propose_fst hrole]
  exact heff.invariant happended fun _ _ hx hxy => hxy.waiting nofun nofun hx

/-- What `waitApplied` hands out is the result of the entry waited for. -/
theorem Waiting.of_waitApplied {e : LogEntry} {old : List (Applied σ)} {nd : RaftNode σ}
    {result : Bytes} (h : Waiting e old nd) (hwait : nd.waitApplied e.index = some result) :
    ∃ new, nd.applied = old ++ new ∧ (∃ o ∈ new, o.entry = e ∧ result = o.result) ∧
      ∀ o ∈ new, o.entry.index = e.index → o.entry = e := by
  obtain ⟨new, hnew, ⟨hlt, -, -⟩ | ⟨hle, ⟨o, ho, hoe, hres⟩, honly⟩⟩ := h.since
  · rw [waitApplied, if_neg (by omega)] at hwait
    contradiction
  · rw [waitApplied, if_pos hle, hres] at hwait
    exact ⟨new, hnew, ⟨o, ho, hoe, (Option.some.inj hwait).symm⟩, honly⟩

end RaftNode

namespace Cluster

variable {c c' : Cluster σ} {a : Action} {n : NodeId} {e : LogEntry}

/-- The request node `n` handles, if any, leaves the entry `e` in place. -/
def KeepsEntry (c : Cluster σ) (n : NodeId) (e : LogEntry) (a : Action) : Prop :=
  ∀ call ∈ c.delivered a, call.target = n → (c.nodes n).KeepsEntry e call.rpc

instance (c : Cluster σ) (n : NodeId) (e : LogEntry) (a : Action) :
    Decidable (c.KeepsEntry n e a) :=
  inferInstanceAs (Decidable (∀ call ∈ c.delivered a, _))

variable [StateMachine σ]

/-- While node `n` is not restarted it waits for the entry. -/
theorem waiting_run {old : List (Applied σ)} (hinv : c.AlignedInv)
    (h : RaftNode.Waiting e old (c.nodes n))
    (hrun : Run Cluster.step (fun c a => c.AboveSnapshot a ∧ c.KeepsEntry n e a) c c')
    (halive : (c'.nodes n).incarnation = (c.nodes n).incarnation) :
    RaftNode.Waiting e old (c'.nodes n) := by
  -- a restart only ever increases the incarnation
  have hall : c'.AlignedInv ∧ ((c.nodes n).incarnation < (c'.nodes n).incarnation ∨
      ((c'.nodes n).incarnation = (c.nodes n).incarnation ∧
        RaftNode.Waiting e old (c'.nodes n))) := by
    refine hrun.invariant (P := fun x => x.AlignedInv ∧
      ((c.nodes n).incarnation < (x.nodes n).incarnation ∨
        ((x.nodes n).incarnation = (c.nodes n).incarnation ∧
          RaftNode.Waiting e old (x.nodes n)))) ⟨hinv, .inr ⟨rfl, h⟩⟩ ?_
    rintro x a y ⟨hx, hwait⟩ ⟨habove, hkeeps⟩ hstep
    refine ⟨hx.step habove hstep, ?_⟩
    rcases step_effects hstep n with ⟨-, heq⟩ | heff
    · -- a restart: the wait is over
      left
      rw [heq]
      have : (x.nodes n).incarnation < (x.nodes n).restart.incarnation := Nat.lt_succ_self _
      rcases hwait with hlt | ⟨hsame, -⟩ <;> omega
    · have hinc : (y.nodes n).incarnation = (x.nodes n).incarnation :=
        heff.invariant (P := fun nd => nd.incarnation = (x.nodes n).incarnation) rfl
          fun _ _ hu huv => huv.incarnation.trans hu
      rw [hinc]
      -- otherwise every effect of the step lets the entry wait on
      refine hwait.imp_right fun ⟨hsame, hw⟩ => ⟨hsame, heff.invariant hw fun _ _ hu huv => ?_⟩
      refine huv.waiting (hx.requests habove) (fun nd rpc hh => ?_) hu
      obtain ⟨rfl, call, hcall, htarget, rfl⟩ := hh
      exact hkeeps call hcall htarget
  rcases hall.2 with hlt | ⟨-, hw⟩
  · omega
  · exact hw

end Cluster

/-- **An acknowledged write is the write that was applied**: when `dispatch` has
proposed a command and answers after `waitApplied`, the node has applied the
proposed entry, and no other at its index, and the answer is the result of the
command — if its log reached what it had applied when it proposed, and the
requests it handled since left the entry in place. -/
theorem acknowledged_write {members : List NodeId} {config : ClusterConfig} {threshold : Nat}
    {c₀ c₁ c₂ : Cluster KvStore} {n : NodeId} {frame cmd reply : Bytes}
    {nd : Option (RaftNode KvStore)} {proposed : ProposeResult}
    (hrun : Run Cluster.step Cluster.AboveSnapshot (.init members config threshold) c₀)
    (hdispatch : KvServer.dispatch (fun _ => some (c₀.nodes n)) frame =
      .ok (nd, .writing cmd proposed))
    (hlast : (c₀.nodes n).lastApplied ≤ (c₀.nodes n).log.lastIndex)
    (hpropose : c₀.step (.propose n cmd) = some c₁)
    (hwait : Run Cluster.step (fun c a => c.AboveSnapshot a ∧
      c.KeepsEntry n ⟨proposed.term, proposed.index, .command, cmd⟩ a) c₁ c₂)
    (halive : (c₂.nodes n).incarnation = (c₁.nodes n).incarnation)
    (hreply : KvServer.finishWrite (c₂.nodes n) proposed = some reply) :
    ∃ new, (c₂.nodes n).applied = (c₀.nodes n).applied ++ new ∧
      (∀ o ∈ new, o.entry.index = proposed.index →
        o.entry = ⟨proposed.term, proposed.index, .command, cmd⟩) ∧
      ∃ o ∈ new, o.entry = ⟨proposed.term, proposed.index, .command, cmd⟩ ∧
        reply = KvServer.writeResponse (StateMachine.apply o.before cmd proposed.index).2 := by
  have hinv := (Cluster.AlignedInv.init members config threshold).run hrun
  obtain ⟨_, _, hn, hrole, -, rfl⟩ := KvServer.of_dispatch_writing hdispatch
  cases hn
  -- the proposal that was dispatched is the one of the step
  have hentry : (c₀.nodes n).propose cmd .command = (((c₀.nodes n).propose cmd .command).1,
      ⟨true, (c₀.nodes n).id, (c₀.nodes n).log.lastIndex + 1, (c₀.nodes n).log.currentTerm⟩) := by
    rw [RaftNode.propose, if_neg (not_not.mpr hrole)]
    rfl
  rw [hentry] at hwait hreply ⊢
  have hnode : c₁.nodes n = ((c₀.nodes n).propose cmd .command).1 :=
    Cluster.step_ownStep hpropose rfl
  have hwaiting := RaftNode.Waiting.of_propose (hinv.nodes n).1 hrole hlast cmd .command
  rw [← hnode] at hwaiting
  have hinv₁ := hinv.step (fun _ h => by cases h) hpropose
  have hdone := Cluster.waiting_run hinv₁ hwaiting hwait halive
  obtain ⟨result, hresult, rfl⟩ := Option.map_eq_some_iff.mp hreply
  -- waitApplied returns the result that was stored with the record
  obtain ⟨new, hnew, ⟨o, ho, hoe, rfl⟩, honly⟩ := hdone.of_waitApplied hresult
  refine ⟨new, hnew, honly, o, ho, hoe, ?_⟩
  rw [Applied.result, hoe]
  rfl

/-- A client's request for the command `putCommand`. -/
def putRequest : Bytes :=
  putU8 1 ++ (putBytes [107] ++ (putBytes [118] ++ (putBytes [] ++ (putU64 7 ++ putU64 1))))

/-- Node 1 takes up the request. -/
def asked : Cluster KvStore := replay Cluster.step elected [.propose 1 putCommand]

theorem dispatch_putRequest :
    KvServer.dispatch (fun _ => some (elected.nodes 1)) putRequest =
      .ok (some ((elected.nodes 1).propose putCommand .command).1,
        .writing putCommand ⟨true, 1, 2, 1⟩) := by
  rfl

/-- It commits the command with node 2. -/
def granted : Cluster KvStore :=
  replay Cluster.step asked [.heartbeat 1, .deliver 3, .reply 0]

theorem acknowledged_write_of_granted :
    ∃ new, (granted.nodes 1).applied = (elected.nodes 1).applied ++ new ∧
      ∃ o ∈ new, o.entry = ⟨1, 2, .command, putCommand⟩ ∧
        KvServer.response 0 [] KvStore.resultOk =
          KvServer.writeResponse (StateMachine.apply o.before putCommand 2).2 := by
  have hrun : Run Cluster.step Cluster.AboveSnapshot threeNodes.start elected :=
    run_replay (by decide +kernel)
  have hwait : Run Cluster.step (fun c a => c.AboveSnapshot a ∧
      c.KeepsEntry 1 ⟨1, 2, .command, putCommand⟩ a) asked granted :=
    run_replay (by decide +kernel)
  have hreply : KvServer.finishWrite (granted.nodes 1) ⟨true, 1, 2, 1⟩ =
      some (KvServer.response 0 [] KvStore.resultOk) := by decide +kernel
  obtain ⟨new, hnew, -, hdone⟩ := acknowledged_write hrun dispatch_putRequest (by decide +kernel)
    rfl hwait (by decide +kernel) hreply
  exact ⟨new, hnew, hdone⟩

/-- The command of another client. -/
def otherCommand : Bytes := (KvCommand.mk .put [107] [119] [] 8 1).encode

/-- Node 2 is elected by node 3 before the command of node 1 reaches anyone,
commits its own command at the same index, and tells node 1. -/
def replaced : Cluster KvStore :=
  replay Cluster.step asked
    [.timeout 2, .deliver 4, .reply 0, .propose 2 otherCommand, .heartbeat 2, .deliver 7, .reply 0,
      .heartbeat 2, .deliver 7]

/-- Node 1 answers its client with `OK`, though the command was never applied:
at its index stands the other client's. -/
theorem replaced_write_acknowledged :
    Run Cluster.step (fun c a => c.Steady a ∧ c.SafeDelivery a) threeNodes.start elected ∧
      KvServer.dispatch (fun _ => some (elected.nodes 1)) putRequest =
        .ok (some ((elected.nodes 1).propose putCommand .command).1,
          .writing putCommand ⟨true, 1, 2, 1⟩) ∧
      elected.step (.propose 1 putCommand) = some asked ∧
      Run Cluster.step (fun c a => c.Steady a ∧ c.SafeDelivery a) asked replaced ∧
      (replaced.nodes 1).incarnation = (asked.nodes 1).incarnation ∧
      KvServer.finishWrite (replaced.nodes 1) ⟨true, 1, 2, 1⟩ =
        some (KvServer.response 0 [] KvStore.resultOk) ∧
      (∃ o ∈ (replaced.nodes 1).applied, o.entry = ⟨2, 2, .command, otherCommand⟩) ∧
      ∀ o ∈ (replaced.nodes 1).applied, o.entry.data ≠ putCommand := by
  refine ⟨run_replay (by decide +kernel), dispatch_putRequest, rfl,
    run_replay (by decide +kernel), ?_⟩
  refine ⟨by decide +kernel, by decide +kernel, by decide +kernel, by decide +kernel⟩

end KvRaft
