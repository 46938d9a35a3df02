import KvRaft.Aligned
import KvRaft.CommitQuorum

/-!
# KvRaft.AppliedConfig

The configuration of a node against the committed entries it has applied.  A
configuration lives in the log only: a snapshot of the store does not hold it,
and neither the constructor nor `handleInstallSnapshot` finds it anywhere else.

* `configAt` — what the last configuration entry among the first committed
  entries puts in force;
* `config_of_applied` — that is the configuration of every node, as long as all
  of them apply the committed entries and skip no configuration among them
  (`Cluster.FollowsCommitted`): a process starts only on a snapshot of other
  entries, and a snapshot is installed only over other entries;
* `restart_forgets_config` — otherwise a node is back at the configuration it
  was first started with.
-/

namespace KvRaft

open PersistentLog (IndexedFrom)

variable {σ : Type}

/-! ## The configuration of a prefix -/

/-- The configuration after the first `k` committed entries. -/
def configAt (initial : ClusterConfig) (committed : List LogEntry) (k : Nat) : ClusterConfig :=
  (((committed.take k).filterMap LogEntry.config?).getLast?).getD initial

theorem config?_of_ne {e : LogEntry} (h : e.type ≠ .config) : e.config? = none := by
  unfold LogEntry.config?
  cases htype : e.type with
  | config => exact absurd htype h
  | _ => rfl

section ConfigAt

variable {initial : ClusterConfig} {committed : List LogEntry}

/-- One more entry. -/
theorem configAt_succ {k : Nat} {e : LogEntry} (h : committed[k]? = some e) :
    configAt initial committed (k + 1) = e.config?.getD (configAt initial committed k) := by
  rw [configAt, configAt, List.take_add_one, h, Option.toList_some, List.filterMap_append]
  cases hc : e.config? with
  | none => simp [hc]
  | some config => simp [hc]

/-- Entries of another kind change nothing. -/
theorem configAt_of_plain {j k : Nat} (hjk : j ≤ k)
    (h : ∀ e ∈ (committed.take k).drop j, e.type ≠ .config) :
    configAt initial committed k = configAt initial committed j := by
  have hnone : ((committed.take k).drop j).filterMap LogEntry.config? = [] :=
    List.filterMap_eq_nil_iff.mpr fun e he => config?_of_ne (h e he)
  have hsplit : committed.take k = committed.take j ++ (committed.take k).drop j := by
    conv_lhs => rw [← List.take_append_drop j (committed.take k), List.take_take,
      Nat.min_eq_left hjk]
  rw [configAt, configAt, hsplit, List.filterMap_append, hnone, List.append_nil]

/-- A batch of committed entries. -/
theorem configAt_batch {last : Nat} {batch : List LogEntry} (hindexed : IndexedFrom last batch)
    (h : ∀ e ∈ batch, committed[e.index - 1]? = some e) :
    configAt initial committed (last + batch.length) =
      batch.foldl (fun config e => e.config?.getD config) (configAt initial committed last) := by
  induction batch generalizing last with
  | nil => rfl
  | cons e batch ih =>
      -- induction on the batch: its first entry is the next committed one
      have hat : committed[last]? = some e := by
        have hindex : e.index = last + 1 := hindexed 0 e rfl
        have he := h e List.mem_cons_self
        rwa [hindex, Nat.add_sub_cancel] at he
      have hrest := ih (by simpa using hindexed.drop 1 : IndexedFrom (last + 1) batch)
        fun x hx => h x (List.mem_cons_of_mem e hx)
      rw [List.foldl_cons, ← configAt_succ hat, ← hrest, List.length_cons]
      congr 1
      omega

end ConfigAt

namespace RaftNode

variable [StateMachine σ]

theorem applyOne_config (n : RaftNode σ) (e : LogEntry) :
    (n.applyOne e).1.config = e.config?.getD n.config := by
  unfold applyOne
  cases htype : e.type with
  | config => exact n.applyConfigEntry_config htype
  | _ => simp only [config?_of_ne (by rw [htype]; nofun : e.type ≠ .config), Option.getD_none]

/-- The configuration follows the entries of a batch. -/
theorem foldl_applyEntry_config (batch : List LogEntry) (n : RaftNode σ) :
    (batch.foldl applyEntry n).config =
      batch.foldl (fun config e => e.config?.getD config) n.config := by
  induction batch generalizing n with
  | nil => rfl
  | cons e batch ih =>
      rw [List.foldl_cons, List.foldl_cons, ih, ← applyOne_config]
      rfl

/-! ## One change of a node -/

/-- What the node has applied is committed. -/
def AppliesCommitted (committed : List LogEntry) (n : RaftNode σ) : Prop :=
  ∀ o ∈ n.applied, committed[o.entry.index - 1]? = some o.entry

instance (committed : List LogEntry) (n : RaftNode σ) : Decidable (n.AppliesCommitted committed) :=
  inferInstanceAs (Decidable (∀ o ∈ n.applied, _))

/-- If what the node has applied is committed, its configuration is that of the
committed entries up to `lastApplied`. -/
def FollowsConfig (initial : ClusterConfig) (committed : List LogEntry) (n : RaftNode σ) : Prop :=
  n.initialConfig = initial ∧
    (n.AppliesCommitted committed → n.config = configAt initial committed n.lastApplied)

/-- No configuration entry is covered by the snapshot that is installed and was
not applied. -/
def InstallsPlain (committed : List LogEntry) (n : RaftNode σ) : Rpc → Prop
  | .installSnapshot req => req.term ≥ n.log.currentTerm →
      req.lastIncludedIndex > n.log.snapshotIndex →
      ∀ e ∈ (committed.take req.lastIncludedIndex).drop n.lastApplied, e.type ≠ .config
  | _ => True

instance (committed : List LogEntry) (n : RaftNode σ) :
    (rpc : Rpc) → Decidable (n.InstallsPlain committed rpc)
  | .installSnapshot req => inferInstanceAs (Decidable (req.term ≥ _ → _ → _))
  | .requestVote .. => isTrue trivial
  | .appendEntries _ => isTrue trivial

namespace FollowsConfig

variable {initial : ClusterConfig} {committed : List LogEntry} {n n' : RaftNode σ}

omit [StateMachine σ] in
/-- A change that neither applies nor skips anything. -/
theorem congr (h : n.FollowsConfig initial committed)
    (hinitial : n'.initialConfig = n.initialConfig)
    (happlied : n'.applied = n.applied) (hconfig : n'.config = n.config)
    (hlast : n'.lastApplied = n.lastApplied) : n'.FollowsConfig initial committed := by
  refine ⟨hinitial.trans h.1, fun hc => ?_⟩
  rw [AppliesCommitted, happlied] at hc
  rw [hconfig, hlast]
  exact h.2 hc

theorem applyCommittedEntries (h : n.FollowsConfig initial committed) (haligned : n.log.Aligned) :
    n.applyCommittedEntries.FollowsConfig initial committed := by
  have hconfig := foldl_applyEntry_config n.toApply n.claim
  obtain ⟨_, config, _, _, _, records, heq, hrecords, -⟩ := n.applyCommittedEntries_eq
  rw [RaftNode.applyCommittedEntries] at heq ⊢
  rw [heq] at hconfig ⊢
  refine ⟨h.1, fun hc => ?_⟩
  -- what was applied before and what is applied now is all committed
  have hbefore : n.AppliesCommitted committed := fun o ho => hc o (List.mem_append_left records ho)
  have hbatch : ∀ e ∈ n.toApply, committed[e.index - 1]? = some e := fun e he => by
    rw [← hrecords] at he
    obtain ⟨o, ho, rfl⟩ := List.mem_map.mp he
    exact hc o (List.mem_append_right n.applied ho)
  have hindexed : IndexedFrom n.lastApplied n.toApply := collect_indexed haligned _ _
  change config = configAt initial committed (n.lastApplied + n.toApply.length)
  rw [configAt_batch hindexed hbatch, ← h.2 hbefore]
  exact hconfig

/-- Every effect keeps it, if a snapshot that is installed skips no
configuration entry. -/
theorem effect {handled : RaftNode σ → Rpc → Prop}
    (hinstall : ∀ nd req, handled nd (.installSnapshot req) →
      nd.InstallsPlain committed (.installSnapshot req))
    (h : n.FollowsConfig initial committed) (haligned : n.log.Aligned)
    (he : Effect handled n n') : n'.FollowsConfig initial committed := by
  cases he with
  | keep hsame =>
      exact h.congr hsame.initialConfig hsame.applied hsame.config hsame.lastApplied
  | append => exact h.congr rfl rfl rfl rfl
  | accept req =>
      have hsame := SameData.becomeFollower n req.term req.leaderId
      exact h.congr hsame.initialConfig hsame.applied hsame.config hsame.lastApplied
  | install req hh hterm hgt =>
      have hsame := SameData.becomeFollower n req.term req.leaderId
      refine ⟨hsame.initialConfig.trans h.1, fun hc => ?_⟩
      have hbefore : n.AppliesCommitted committed := by
        rw [AppliesCommitted, ← hsame.applied]
        exact hc
      have hplain := hinstall n req hh hterm hgt
      change (n.becomeFollower req.term req.leaderId).config = configAt initial committed
        (max (n.becomeFollower req.term req.leaderId).lastApplied req.lastIncludedIndex)
      rw [hsame.config, hsame.lastApplied, h.2 hbefore]
      -- what the snapshot covers above `lastApplied` holds no configuration
      rcases Nat.le_total n.lastApplied req.lastIncludedIndex with hle | hle
      · rw [Nat.max_eq_right hle, configAt_of_plain hle hplain]
      · rw [Nat.max_eq_left hle]
  | compact =>
      rcases n.forceSnapshot_cases with heq | heq <;> rw [heq]
      · exact h
      · exact h.congr rfl rfl rfl rfl
  | apply => exact h.applyCommittedEntries haligned

/-- A restart keeps it if its snapshot covers no configuration entry. -/
theorem restart (h : n.FollowsConfig initial committed)
    (hplain : ∀ e ∈ committed.take n.restart.log.snapshotIndex, e.type ≠ .config) :
    n.restart.FollowsConfig initial committed := by
  refine ⟨h.1, fun _ => ?_⟩
  change n.initialConfig = configAt initial committed n.restart.log.snapshotIndex
  rw [h.1, configAt_of_plain (Nat.zero_le _) hplain]
  rfl

end FollowsConfig

end RaftNode

/-! ## Along a run -/

namespace Cluster

variable [StateMachine σ]

/-- What a step applies is committed.  Requests start above the snapshots of their
targets, and nobody's `lastApplied` passes over a configuration entry that is not
applied: neither by a restart nor by a snapshot that is installed. -/
def FollowsCommitted (committed : List LogEntry) (c : Cluster σ) (a : Action) : Prop :=
  c.AboveSnapshot a ∧
    (∀ c' ∈ c.step a, ∀ b ∈ c.members, (c'.nodes b).AppliesCommitted committed) ∧
    (∀ call ∈ c.delivered a, (c.nodes call.target).InstallsPlain committed call.rpc) ∧
    match a with
    | .restart b => ∀ e ∈ committed.take (c.nodes b).log.snapshotIndex, e.type ≠ .config
    | _ => True

instance (committed : List LogEntry) (c : Cluster σ) (a : Action) :
    Decidable (c.FollowsCommitted committed a) := by
  rcases a with _ | _
  case restart => exact inferInstanceAs (Decidable (_ ∧ _ ∧ _ ∧ ∀ e ∈ _, _))
  all_goals exact inferInstanceAs (Decidable (_ ∧ _ ∧ _ ∧ True))

variable {c c' : Cluster σ} {a : Action}

theorem followsConfig_step {initial : ClusterConfig} {committed : List LogEntry}
    (haligned : c.AlignedInv) (h : ∀ b, (c.nodes b).FollowsConfig initial committed)
    (hok : c.FollowsCommitted committed a) (hstep : c.step a = some c') (b : NodeId) :
    (c'.nodes b).FollowsConfig initial committed := by
  obtain ⟨habove, -, hinstall, hrestart⟩ := hok
  rcases step_effects hstep b with ⟨rfl, heq⟩ | heff
  · -- a restart falls back to the initial configuration
    have hlog : (c.nodes b).restart.log = (c.nodes b).log := (haligned.nodes b).2
    rw [heq]
    exact (h b).restart (by rw [hlog]; exact hrestart)
  · refine (heff.invariant (P := fun nd => nd.log.Aligned ∧ nd.FollowsConfig initial committed)
      ⟨(haligned.nodes b).1, h b⟩ fun x y hx hxy =>
        ⟨hxy.aligned (haligned.requests habove) hx.1, hx.2.effect ?_ hx.1 hxy⟩).2
    rintro nd req ⟨rfl, call, hcall, rfl, hreq⟩
    rw [← hreq]
    exact hinstall call hcall

/-- Whatever the members have applied is committed. -/
theorem appliesCommitted_of_run {members : List NodeId} {config : ClusterConfig} {threshold : Nat}
    {committed : List LogEntry}
    (hrun : Run Cluster.step (FollowsCommitted committed) (.init members config threshold) c) :
    ∀ b ∈ members, (c.nodes b).AppliesCommitted committed := by
  refine (hrun.invariant (P := fun c => c.members = members ∧
    ∀ b ∈ members, (c.nodes b).AppliesCommitted committed) ⟨rfl, fun _ _ _ ho => ?_⟩ ?_).2
  · exact absurd ho List.not_mem_nil
  · rintro x a y ⟨hmembers, -⟩ ⟨-, happlied, -⟩ hstep
    refine ⟨(step_members hstep).trans hmembers, ?_⟩
    rw [← hmembers]
    exact happlied y hstep

end Cluster

variable [StateMachine σ]

/-- **The configuration is determined by the applied prefix**: in every state of
a run whose nodes apply what is committed and skip no configuration entry of it
(`Cluster.FollowsCommitted`), the configuration of each node is that of the
committed entries up to its `lastApplied`; so nodes that have applied equally
much have the same one. -/
theorem config_of_applied {members : List NodeId} {config : ClusterConfig} {threshold : Nat}
    {committed : List LogEntry} {c : Cluster σ}
    (hrun : Run Cluster.step (Cluster.FollowsCommitted committed)
      (.init members config threshold) c) :
    (∀ b ∈ members, (c.nodes b).config = configAt config committed (c.nodes b).lastApplied) ∧
      ∀ b ∈ members, ∀ b' ∈ members, (c.nodes b).lastApplied = (c.nodes b').lastApplied →
        (c.nodes b).config = (c.nodes b').config := by
  have hinv : c.AlignedInv ∧ ∀ b, (c.nodes b).FollowsConfig config committed :=
    hrun.invariant (P := fun c => c.AlignedInv ∧ ∀ b, (c.nodes b).FollowsConfig config committed)
      ⟨.init members config threshold, fun b => ⟨rfl, fun _ => rfl⟩⟩
      fun _ _ _ h hok hstep => ⟨h.1.step hok.1 hstep, Cluster.followsConfig_step h.1 h.2 hok hstep⟩
  have hconfig := fun b hb => (hinv.2 b).2 (Cluster.appliesCommitted_of_run hrun b hb)
  exact ⟨hconfig, fun b hb b' hb' heq => by rw [hconfig b hb, hconfig b' hb', heq]⟩

/-- The no-op of node 1 and the configuration with node 4. -/
def joining : List LogEntry :=
  [⟨1, 1, .noOp, []⟩, ⟨1, 2, .config, (ClusterConfig.mk [1, 2, 3, 4] [(4, [])]).encode⟩]

/-- Node 1 adds node 4 with the help of node 2 and tells node 2 of its commit;
node 3 is restarted. -/
def joined : Cluster KvStore :=
  replay Cluster.step elected
    [.addServer 1 4 [], .heartbeat 1, .deliver 3, .reply 0, .heartbeat 1, .restart 3, .deliver 4]

theorem config_of_applied_of_joined :
    (joined.nodes 1).lastApplied = 2 ∧ (joined.nodes 2).lastApplied = 2 ∧
      (joined.nodes 1).config.voters = [1, 2, 3, 4] ∧
      (joined.nodes 1).config = (joined.nodes 2).config := by
  have hrun : Run Cluster.step (Cluster.FollowsCommitted joining) threeNodes.start joined :=
    .trans (run_replay (by decide +kernel) : Run _ _ _ elected) (run_replay (by decide +kernel))
  exact ⟨by decide +kernel, by decide +kernel, by decide +kernel,
    (config_of_applied hrun).2 1 (by decide) 2 (by decide) (by decide +kernel)⟩

/-- Node 2 takes a snapshot and is restarted. -/
def forgotten : Cluster KvStore := replay Cluster.step joined [.forceSnapshot 2, .restart 2]

/-- The snapshot covers the configuration entry, which nobody reads again: of
two nodes that have applied the same two entries one knows of node 4. -/
theorem restart_forgets_config :
    Run Cluster.step Cluster.AboveSnapshot threeNodes.start forgotten ∧
      (∀ b ∈ threeNodes.members, (forgotten.nodes b).AppliesCommitted joining) ∧
      (forgotten.nodes 1).lastApplied = 2 ∧ (forgotten.nodes 2).lastApplied = 2 ∧
      (forgotten.nodes 1).config.voters = [1, 2, 3, 4] ∧
      (forgotten.nodes 2).config.voters = [1, 2, 3] ∧
      (forgotten.nodes 2).config ≠ configAt threeNodes.config joining 2 := by
  refine ⟨.trans (run_replay (by decide +kernel) : Run _ _ _ elected)
    (.trans (run_replay (by decide +kernel) : Run _ _ _ joined)
      (run_replay (by decide +kernel))), ?_⟩
  refine ⟨by decide +kernel, by decide +kernel, by decide +kernel, by decide +kernel,
    by decide +kernel, by decide +kernel⟩

end KvRaft
