import KvRaft.Effect

/-!
# KvRaft.FixedConfig

A cluster whose membership nobody changes: no log, no request and no node ever holds a
configuration other than the one the processes were started with
(`Cluster.keepsConfig_of_run`).
-/

namespace KvRaft

variable {σ : Type}

namespace RaftNode

/-- The nodes agree on the log, the office and the tables of a leader. -/
structure SameTables (n n' : RaftNode σ) : Prop where
  id : n'.id = n.id
  role : n'.role = n.role
  config : n'.config = n.config
  log : n'.log = n.log
  nextIndex : n'.nextIndex = n.nextIndex
  matchIndex : n'.matchIndex = n.matchIndex

/-- Entries that hold no configuration leave the tables alone. -/
theorem applyCommittedEntries_tables [StateMachine σ] {n : RaftNode σ}
    (hplain : ∀ e ∈ n.log.entries, e.type ≠ .config) :
    SameTables n n.applyCommittedEntries := by
  obtain ⟨sm, pendingResults, records, -, heq⟩ := foldl_applyEntry_plain
    (fun e he => hplain e (mem_collect he)) n.claim
  rw [applyCommittedEntries, toApply, heq]
  exact ⟨rfl, rfl, rfl, rfl, rfl, rfl⟩

/-- The node has the configuration it was started with, and no other in its log. -/
structure KeepsConfig (config : ClusterConfig) (n : RaftNode σ) : Prop where
  config_eq : n.config = config
  initial : n.initialConfig = config
  plain : ∀ e ∈ n.log.entries, e.type ≠ .config
  synced : n.log.Synced

namespace KeepsConfig

variable {config : ClusterConfig} {n n' : RaftNode σ}

theorem sameData (h : n.KeepsConfig config) (hsame : SameData n n') : n'.KeepsConfig config where
  config_eq := hsame.config.trans h.config_eq
  initial := hsame.initialConfig.trans h.initial
  plain := by rw [hsame.entries]; exact h.plain
  synced := hsame.synced h.synced

theorem appendAndSync (h : n.KeepsConfig config) {es : List LogEntry}
    (hes : ∀ e ∈ es, e.type ≠ .config) (commitIndex : Nat) :
    { n with log := n.log.appendAndSync es, commitIndex }.KeepsConfig config where
  config_eq := h.config_eq
  initial := h.initial
  plain := fun e he => (n.log.mem_appendAndSync_entries _ he).elim (h.plain e) (hes e)
  synced := h.synced.appendAndSync es

theorem compactUpTo (h : n.KeepsConfig config) (i t : Nat) (bytes : Bytes) (sm : σ)
    (commitIndex lastApplied : Nat) :
    { n with log := n.log.compactUpTo i t bytes, sm, commitIndex, lastApplied }.KeepsConfig
      config where
  config_eq := h.config_eq
  initial := h.initial
  plain := fun e he => h.plain e (n.log.mem_compactUpTo_entries _ _ _ he)
  synced := h.synced.compactUpTo i t bytes

variable [StateMachine σ]

theorem applyCommittedEntries (h : n.KeepsConfig config) :
    n.applyCommittedEntries.KeepsConfig config := by
  have htables := applyCommittedEntries_tables h.plain
  obtain ⟨_, _, _, _, _, _, heq, -⟩ := n.applyCommittedEntries_eq
  refine ⟨htables.config.trans h.config_eq, ?_, ?_, ?_⟩
  · rw [heq]
    exact h.initial
  · rw [htables.log]
    exact h.plain
  · rw [htables.log]
    exact h.synced

theorem tryAdvanceCommitIndex (h : n.KeepsConfig config) :
    n.tryAdvanceCommitIndex.KeepsConfig config := by
  obtain heq | ⟨i, -, -, -, heq⟩ := n.tryAdvanceCommitIndex_cases
  · rwa [heq]
  · rw [heq]
    exact (h.sameData (.volatile n _ _ _ _ _ _)).applyCommittedEntries

theorem propose (h : n.KeepsConfig config) (data : Bytes) {type : EntryType}
    (htype : type ≠ .config) : (n.propose data type).1.KeepsConfig config := by
  obtain heq | ⟨-, heq⟩ := n.propose_cases data type
  · rwa [heq]
  · rw [heq]
    refine (h.appendAndSync (fun e he => ?_) n.commitIndex).tryAdvanceCommitIndex
    rw [List.mem_singleton.mp he]
    exact htype

theorem becomeLeader (h : n.KeepsConfig config) : n.becomeLeader.1.KeepsConfig config := by
  by_cases hrole : n.role = .candidate
  · have hlead : n.lead.KeepsConfig config := h.sameData (.volatile n _ _ _ _ _ _)
    rw [becomeLeader_fst hrole]
    exact (hlead.propose [] (by decide)).tryAdvanceCommitIndex
  · rwa [becomeLeader_of_ne hrole]

theorem becomeCandidate (h : n.KeepsConfig config) : n.becomeCandidate.1.KeepsConfig config := by
  have hcandidacy : n.candidacy.KeepsConfig config :=
    h.sameData (.setHardState n (Nat.le_succ _) _ _ _ _)
  have hstands := n.stands_becomeCandidate
  generalize n.becomeCandidate.1 = n', n.becomeCandidate.2 = sent at hstands
  cases hstands with
  | outside => exact h.sameData (.setHardState n (Nat.le_succ _) _ _ _ _)
  | alone => exact hcandidacy.becomeLeader
  | ask => exact hcandidacy

theorem handle (h : n.KeepsConfig config) {rpc : Rpc}
    (hrpc : ∀ req, rpc = .appendEntries req → ∀ e ∈ req.entries, e.type ≠ .config) :
    (n.handle rpc).1.KeepsConfig config := by
  have hfollows : ∀ t l, (n.becomeFollower t l).KeepsConfig config :=
    fun t l => h.sameData (.becomeFollower n t l)
  have hhandles := n.handles_handle rpc
  generalize (n.handle rpc).1 = n' at hhandles
  cases hhandles with
  | refuse => exact h
  | vote req => exact h.sameData (.castVote n req)
  | voteLater req => exact (hfollows req.term 0).sameData (.castVote _ req)
  | reject req | covered req => exact hfollows req.term req.leaderId
  | accept req =>
      exact ((hfollows _ _).appendAndSync (hrpc req rfl) _).applyCommittedEntries
  | install req => exact (hfollows _ _).compactUpTo _ _ _ _ _ _

theorem callback (h : n.KeepsConfig config) (peer : NodeId) (ans : Answer) :
    (n.callback peer ans).1.KeepsConfig config := by
  have hcount : ∀ t, (n.countVote t).KeepsConfig config :=
    fun _ => h.sameData (.volatile n _ _ _ _ _ _)
  have htrack : ∀ nextIndex matchIndex,
      { n with nextIndex, matchIndex }.KeepsConfig config :=
    fun _ _ => h.sameData (.volatile n _ _ _ _ _ _)
  have hcalls := n.callsBack_callback peer ans
  generalize (n.callback peer ans).1 = n', (n.callback peer ans).2 = sent at hcalls
  cases hcalls with
  | ignore => exact h
  | follow _ t => exact h.sameData (.becomeFollower n t 0)
  | count => exact hcount _
  | win => exact (hcount _).becomeLeader
  | advance => exact (htrack _ _).tryAdvanceCommitIndex
  | track => exact htrack _ _

theorem forceSnapshot (h : n.KeepsConfig config) : n.forceSnapshot.KeepsConfig config := by
  rcases n.forceSnapshot_cases with heq | heq <;> rw [heq]
  · exact h
  · exact h.compactUpTo _ _ _ n.sm n.commitIndex n.lastApplied

theorem restart (h : n.KeepsConfig config) : n.restart.KeepsConfig config := by
  have hlog : n.restart.log = n.log := h.synced
  refine ⟨h.initial, h.initial, ?_, ?_⟩ <;> rw [hlog]
  · exact h.plain
  · exact h.synced

end KeepsConfig

end RaftNode

/-! ## Along a run -/

namespace Cluster

variable [StateMachine σ] {c c' : Cluster σ} {a : Action}

/-- Nobody has another configuration or hears of one. -/
structure KeepsConfig (config : ClusterConfig) (c : Cluster σ) : Prop where
  nodes : ∀ b, (c.nodes b).KeepsConfig config
  calls : ∀ call, c.OnItsWay call → ∀ req, call.rpc = .appendEntries req →
    ∀ e ∈ req.entries, e.type ≠ .config

theorem KeepsConfig.ownStep {config : ClusterConfig} (h : c.KeepsConfig config)
    (hfixed : c.FixedMembership a) {b : NodeId} {nd : RaftNode σ} {sent : List Call}
    (hown : c.ownStep a = some (b, nd, sent)) : nd.KeepsConfig config := by
  cases a with
  | timeout n =>
      obtain ⟨-, hown⟩ := Option.ite_none_left_eq_some.mp hown
      obtain ⟨rfl, hout⟩ := Prod.mk.inj (Option.some.inj hown)
      have hnd := (h.nodes n).becomeCandidate
      rwa [hout] at hnd
  | heartbeat | readBarrier =>
      cases hown
      exact h.nodes b
  | propose _ data =>
      cases hown
      exact (h.nodes b).propose data (by decide)
  -- the two steps the condition excludes
  | addServer | removeServer => cases hfixed
  | forceSnapshot =>
      cases hown
      exact (h.nodes b).forceSnapshot
  | maybeSnapshot =>
      cases hown
      rcases (c.nodes b).maybeSnapshot_cases with heq | heq <;> rw [heq]
      · exact h.nodes b
      · exact (h.nodes b).forceSnapshot
  | restart =>
      cases hown
      exact (h.nodes b).restart
  | deliver | copy | copySilent | redeliver | reply => cases hown

theorem KeepsConfig.step {config : ClusterConfig} (h : c.KeepsConfig config)
    (hfixed : c.FixedMembership a) (hstep : c.step a = some c') : c'.KeepsConfig config := by
  have hnodes : ∀ b, (c'.nodes b).KeepsConfig config := by
    intro b
    obtain heq | ⟨sent, hown⟩ | ⟨call, hcall, -, heq⟩ | ⟨i, r, -, -, -, heq⟩ := step_node hstep b
    · rw [heq]
      exact h.nodes b
    · exact h.ownStep hfixed hown
    · rw [heq]
      exact (h.nodes b).handle (h.calls call (onItsWay_of_delivered hcall))
    · rw [heq]
      exact (h.nodes b).callback _ _
  -- what is on its way was so before, asks for votes, or comes from a log without configurations
  refine ⟨hnodes, fun call hcall req hreq e he => ?_⟩
  rcases step_calls hstep hcall with hbefore | hvote | ⟨b, hsent⟩
  · exact h.calls call hbefore req hreq e he
  · rw [Call.isVote, hreq] at hvote
    cases hvote
  · obtain ⟨-, peer, rfl⟩ := RaftNode.of_mem_broadcast hsent
    unfold RaftNode.replicateTo at hreq
    dsimp only at hreq
    split at hreq
    · cases hreq
    · cases hreq
      exact (hnodes b).plain e (PersistentLog.mem_of_mem_entriesAfter _ _ he)

/-- Every node has the id it was started with. -/
theorem id_of_run (S : Setup) {ok : Cluster σ → Action → Prop} {c : Cluster σ}
    (hrun : Run Cluster.step ok S.start c) (b : NodeId) : (c.nodes b).id = b :=
  hrun.invariant (P := fun c => (c.nodes b).id = b) rfl
    fun _ _ _ h _ hstep => (step_id hstep b).trans h

/-- Without membership changes every node keeps the configuration it was started with. -/
theorem keepsConfig_of_run (S : Setup) {c : Cluster σ}
    (hrun : Run Cluster.step FixedMembership S.start c) : c.KeepsConfig S.config := by
  have hstart : (S.start : Cluster σ).KeepsConfig S.config :=
    ⟨fun b => ⟨rfl, rfl, fun _ he => absurd he List.not_mem_nil, rfl⟩,
      fun _ hcall => (hcall.elim List.not_mem_nil List.not_mem_nil).elim⟩
  exact hrun.invariant hstart fun _ _ _ h hok hstep => h.step hok hstep

end Cluster

end KvRaft
