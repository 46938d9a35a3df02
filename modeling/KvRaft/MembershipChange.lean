import KvRaft.AppliedConfig
import KvRaft.ApplyOrder
import KvRaft.ThreadedCluster

/-!
# KvRaft.MembershipChange

What an `addServer` or `removeServer` on a leader changes.  The new
configuration is computed from the one in force when the call is made, and put
in force when its entry is applied; in between others can be proposed and
applied.

* `one_change_at_a_time` — every configuration entry changes the configuration of
  every node that applies it by the change it was asked for and nothing else, if a
  change that gets committed is proposed on the configuration in force while no
  other is in flight, and the nodes apply the committed entries in order without
  skipping a configuration (`Threads.ChangesAlone`); the majorities before and
  after then share a voter;
* `second_change_undoes_first` — of two changes in flight the second one undoes
  the first.
-/

namespace KvRaft

open Pool

variable {σ : Type}

/-! ## Changes of one server -/

/-- Majorities before and after a change share a voter. -/
theorem Change.majorities_meet {c : ClusterConfig} {change : Change} {q q' : List NodeId}
    (h : IsMajority c.voters q) (h' : IsMajority (change.apply c).voters q') :
    ∃ v, v ∈ q ∧ v ∈ q' := by
  cases change with
  | add id address =>
      simp only [Change.apply, RaftNode.withServer] at h'
      split at h'
      · exact h.meet h'
      · -- one voter more: majorities of the two sizes still overlap
        obtain ⟨v, hv', hv⟩ := h'.meet_fewer h (x := id)
          (fun v hv => (List.mem_append.mp hv).symm.imp_left List.mem_singleton.mp) (by simp)
        exact ⟨v, hv, hv'⟩
  | remove id =>
      simp only [Change.apply, RaftNode.withoutServer] at h'
      by_cases hid : id ∈ c.voters
      · -- one voter less, and the other way round
        refine h.meet_fewer h' (x := id) (fun v hv => ?_) ?_
        · by_cases heq : v = id
          · exact .inl heq
          · exact .inr (List.mem_filter.mpr ⟨hv, by simpa using heq⟩)
        · exact List.length_filter_lt_length_iff_exists.mpr ⟨id, hid, by simp⟩
      · have hsame : c.voters.filter (· ≠ id) = c.voters :=
          List.filter_eq_self.mpr fun v hv => by simpa using ne_of_mem_of_not_mem hv hid
        -- removing nobody changes nothing
        rw [hsame] at h'
        exact h.meet h'

/-- The configuration that was encoded. -/
theorem config?_encode {c : ClusterConfig} (h : c.Fits) (term index : Nat) :
    LogEntry.config? ⟨term, index, .config, c.encode⟩ = some c :=
  (ClusterConfig.decodes h).run'_self

/-! ## When changes are made -/

namespace Threads

/-- The index of the last entry that was applied, or that the restored snapshot
covers if none was applied after it. -/
def reached (s : Threads σ) : Nat := s.base + s.since.length

end Threads

/-- A leader proposes a change that will be committed on the configuration in
force, while no other committed one lies between what it has applied and the end
of its log.  What is claimed is committed, and a snapshot that is installed covers
no configuration that was not applied. -/
def Stretch.ChangesAlone (committed : List LogEntry) (s : Threads σ) : Stretch → Prop
  | .proposeChange change seen => s.node.role = .leader →
      committed[s.node.log.lastIndex]? =
        some (s.node.newEntry (change.apply seen).encode .config) →
      seen = s.node.config ∧ (change.apply seen).Fits ∧ s.reached ≤ s.node.log.lastIndex ∧
        ∀ e ∈ (committed.take s.node.log.lastIndex).drop s.reached, e.type ≠ .config
  | .applyCommittedEntries => ∀ e ∈ s.node.toApply, committed[e.index - 1]? = some e
  | .acceptSnapshot req => s.node.log.snapshotIndex < req.lastIncludedIndex →
      ∀ e ∈ (committed.take req.lastIncludedIndex).drop s.node.lastApplied, e.type ≠ .config
  | _ => True

instance (committed : List LogEntry) (s : Threads σ) (k : Stretch) :
    Decidable (k.ChangesAlone committed s) := by
  rcases k with _ | _
  case proposeChange => exact inferInstanceAs (Decidable (_ → _ → _ ∧ _ ∧ _ ∧ ∀ e ∈ _, _))
  case applyCommittedEntries => exact inferInstanceAs (Decidable (∀ e ∈ _, _ = _))
  case acceptSnapshot => exact inferInstanceAs (Decidable (_ → ∀ e ∈ _, _))
  all_goals exact instDecidableTrue

/-- Entries are applied in order, the stretch meets `Stretch.ChangesAlone`, and a
process starts only on a snapshot that covers no configuration. -/
def Threads.ChangesAlone (committed : List LogEntry) (s : Threads σ) (a : Action) : Prop :=
  s.InOrder a ∧ (∀ k ∈ s.running a, k.ChangesAlone committed s) ∧
    (a = .restart → ∀ e ∈ committed.take s.node.log.snapshotIndex, e.type ≠ .config)

instance (committed : List LogEntry) (s : Threads σ) (a : Threads.Action) :
    Decidable (s.ChangesAlone committed a) :=
  inferInstanceAs (Decidable (_ ∧ _ ∧ _))

def ThreadedCluster.ChangesAlone (committed : List LogEntry) (c : ThreadedCluster σ)
    (x : NodeId × Threads.Action) : Prop :=
  (c.nodes x.1).ChangesAlone committed x.2

instance (committed : List LogEntry) (c : ThreadedCluster σ) (x : NodeId × Threads.Action) :
    Decidable (c.ChangesAlone committed x) :=
  inferInstanceAs (Decidable (Threads.ChangesAlone committed _ _))

/-! ## The configuration of one node -/

variable [StateMachine σ]

namespace Stretch

theorem next_proposesNoConfig (n : RaftNode σ) (k : Stretch) :
    ∀ k' ∈ (k.run n).next, k'.ProposesNoConfig := by
  intro k' hk'
  cases next_follows hk' with
  | plain _ _ hconfig => exact hconfig
  | _ => trivial


/-- What is claimed was committed. -/
theorem next_work_committed {committed : List LogEntry} {s : Threads σ} {k : Stretch}
    (hok : k.ChangesAlone committed s) (hk : ∀ e ∈ k.work, committed[e.index - 1]? = some e) :
    ∀ k' ∈ (k.run s.node).next, ∀ e ∈ k'.work, committed[e.index - 1]? = some e := by
  intro k' hk'
  cases next_follows hk' with
  | claim => exact hok
  | rest e rest => exact fun e' he' => hk e' (List.mem_cons_of_mem e he')
  | plain hplain =>
      rw [work_of_isPlain hplain]
      exact List.forall_mem_nil _
  | _ => exact List.forall_mem_nil _

end Stretch

theorem Entry.proposesNoConfig (entry : Entry) : entry.stretch.ProposesNoConfig := by
  rcases entry with _ | _ | _ | (_ | _ | _) | ⟨_, _ | _ | _⟩ | _ | _ | _ | _ | _
  case propose => exact EntryType.noConfusion
  all_goals trivial

namespace Threads

variable {initial : ClusterConfig} {committed : List LogEntry} {s s' : Threads σ}

/-- The configuration is that of the committed entries up to the last one that was
applied, and what is claimed goes on with them. -/
structure Configured (initial : ClusterConfig) (committed : List LogEntry) (s : Threads σ) :
    Prop where
  ordered : s.Ordered
  started : s.node.initialConfig = initial
  config : s.node.config = configAt initial committed s.reached
  claimed : Every (fun k => ∀ e ∈ k.work, committed[e.index - 1]? = some e) s.threads
  proposals : Every Stretch.ProposesNoConfig s.threads

namespace Configured

theorem init (id : NodeId) (threshold : Nat) (config : ClusterConfig) :
    Configured config committed (Threads.init id threshold config : Threads σ) where
  ordered := .init id threshold config
  started := rfl
  config := rfl
  claimed := .nil
  proposals := .nil

omit [StateMachine σ] in
/-- The next entry is the committed one, and the configuration in force is that of
the entries before it. -/
theorem next (h : Configured initial committed s) {i : Nat} {e : LogEntry}
    {rest : List LogEntry} {ks : List Stretch}
    (hi : s.threads[i]? = some (.applyLoop (e :: rest) :: ks)) :
    e.index = s.reached + 1 ∧ committed[s.reached]? = some e := by
  have hindex : e.index = s.reached + 1 := h.ordered.next_index hi
  have hat := h.claimed.head hi e List.mem_cons_self
  rw [hindex, Nat.add_sub_cancel] at hat
  exact ⟨hindex, hat⟩

/-- The configuration after a stretch. -/
theorem ran (h : Configured initial committed s) {i : Nat} {k : Stretch} {ks : List Stretch}
    (hi : s.threads[i]? = some (k :: ks)) (hok : k.InOrder s) (hk : k.ChangesAlone committed s) :
    (s.ran i k ks).node.initialConfig = initial ∧
      (s.ran i k ks).node.config = configAt initial committed (s.ran i k ks).reached := by
  have hdoes := k.does s.toHistory s.node
  have hnext : ∀ e rest, k = .applyLoop (e :: rest) → committed[s.reached]? = some e :=
    fun e rest heq => (h.next (heq ▸ hi)).2
  change (k.run s.node).shared.initialConfig = initial ∧ (k.run s.node).shared.config =
    configAt initial committed
      ((s.toHistory.after s.node k).base + (s.toHistory.after s.node k).since.length)
  generalize (k.run s.node).next.flatMap Stretch.work = w at hdoes
  generalize s.toHistory.after s.node k = h', (k.run s.node).shared = n' at hdoes ⊢
  cases hdoes with
  | keep _ hsame hdata =>
      rw [hsame.base, hsame.since, hdata.initialConfig, hdata.config]
      exact ⟨h.started, h.config⟩
  | append _ _ _ hsame =>
      rw [hsame.base, hsame.since]
      exact ⟨h.started, h.config⟩
  | accept | compact | claim | store => exact ⟨h.started, h.config⟩
  | install req hgt =>
      -- everything claimed is applied, and the snapshot only covers other entries above it
      obtain ⟨hidle, hreach⟩ := hok hgt
      have hlast : s.reached = s.node.lastApplied := (h.ordered.lastApplied_of_idle hidle).symm
      refine ⟨h.started, h.config.trans ?_⟩
      rw [hlast]
      exact (configAt_of_plain hreach (hk hgt)).symm
  | apply e =>
      refine ⟨?_, ?_⟩
      · obtain ⟨_, _, _, _, hone⟩ := s.node.applyOne_eq e
        rw [hone]
        exact h.started
      · rw [s.node.applyOne_config, List.length_append, List.length_singleton, ← Nat.add_assoc]
        change _ = configAt initial committed (s.reached + 1)
        -- applying takes the configuration over from the entry
        rw [configAt_succ (hnext e _ rfl), h.config]

theorem restart (h : Configured initial committed s)
    (hplain : ∀ e ∈ committed.take s.node.log.snapshotIndex, e.type ≠ .config) :
    Configured initial committed ⟨⟨s.node.restart, [], s.out⟩,
      s.toHistory.restart s.node.restart.log.snapshotIndex⟩ where
  ordered := h.ordered.restart
  started := h.started
  config := by
    have hlog : s.node.restart.log = s.node.log := h.ordered.synced
    change s.node.initialConfig = configAt initial committed s.node.restart.log.snapshotIndex
    rw [hlog, h.started, configAt_of_plain (Nat.zero_le _) hplain]
    rfl
  claimed := .nil
  proposals := .nil

theorem step (h : Configured initial committed s) {a : Action} (hok : s.ChangesAlone committed a)
    (hstep : s.step a = some s') : Configured initial committed s' := by
  obtain ⟨horder, hchanges, hrestart⟩ := hok
  have hordered := h.ordered.step horder hstep
  obtain ⟨entry, -, rfl⟩ | ⟨i, k, ks, rfl, hi, rfl⟩ | ⟨rfl, rfl⟩ := step_cases hstep
  · refine { h with
      ordered := hordered
      claimed := h.claimed.append ?_
      proposals := h.proposals.append entry.proposesNoConfig }
    rw [Stretch.work_of_isPlain entry.isPlain]
    exact List.forall_mem_nil _
  · have hk := hchanges k (running_of_getElem? hi)
    obtain ⟨hstarted, hconfig⟩ := h.ran hi (horder k (running_of_getElem? hi)) hk
    exact ⟨hordered, hstarted, hconfig,
      h.claimed.set hi (Stretch.next_work_committed hk (h.claimed.head hi)),
      h.proposals.set hi (Stretch.next_proposesNoConfig s.node k)⟩
  · exact h.restart (hrestart rfl)

theorem of_run {id : NodeId} {threshold : Nat} {config : ClusterConfig}
    (hrun : Run Threads.step (ChangesAlone committed) (.init id threshold config) s) :
    Configured config committed s :=
  hrun.invariant (init id threshold config) fun _ _ _ h hok hstep => h.step hok hstep

end Configured

/-- What was asked for stays on record. -/
theorem changes_subset {a : Action} (hstep : s.step a = some s') : s.changes ⊆ s'.changes := by
  obtain ⟨entry, -, rfl⟩ | ⟨i, k, ks, rfl, hi, rfl⟩ | ⟨-, rfl⟩ := step_cases hstep
  · exact List.Subset.refl _
  · change s.changes ⊆ (s.toHistory.after s.node k).changes
    cases k with
    | proposeChange change seen =>
        simp only [History.after]
        split
        · exact List.Subset.refl _
        · exact List.subset_append_left _ _
    | applyLoop toApply => cases toApply <;> exact List.Subset.refl _
    | acceptSnapshot req =>
        simp only [History.after]
        split <;> exact List.Subset.refl _
    | _ => exact List.Subset.refl _
  · exact List.Subset.refl _

/-- A change that a leader proposes. -/
theorem mem_changes_of_proposeChange {i : Nat} {change : Change} {seen : ClusterConfig}
    (hrunning : s.running (.run i) = some (.proposeChange change seen))
    (hrole : s.node.role = .leader) (hstep : s.step (.run i) = some s') :
    (s.node.newEntry (change.apply seen).encode .config, change) ∈ s'.changes := by
  obtain ⟨_, h, -⟩ | ⟨j, k, ks, h, hi, rfl⟩ | ⟨h, -⟩ := step_cases hstep
  · contradiction
  · cases h
    obtain rfl := Option.some.inj ((running_of_getElem? hi).symm.trans hrunning)
    change _ ∈ (s.toHistory.after s.node _).changes
    simp only [History.after]
    rw [if_neg (not_not_intro hrole)]
    exact List.mem_append_right _ (List.mem_singleton_self _)
  · contradiction

end Threads

/-! ## Where configurations come from -/

namespace ThreadedCluster

variable {config : ClusterConfig} {committed : List LogEntry} {members : List NodeId}
  {threshold : Nat} {c c' : ThreadedCluster σ}

/-- If the entry is a committed configuration, some member was asked for a change
with it, and it is that change of the configuration before it. -/
def Asked (config : ClusterConfig) (committed : List LogEntry) (c : ThreadedCluster σ)
    (e : LogEntry) : Prop :=
  e.type = .config → committed[e.index - 1]? = some e →
    ∃ m ∈ c.members, ∃ change, (e, change) ∈ (c.nodes m).changes ∧
      e.config? = some (change.apply (configAt config committed (e.index - 1)))

theorem Asked.step {x : NodeId × Threads.Action} {e : LogEntry} (h : Asked config committed c e)
    (hstep : c.step x = some c') : Asked config committed c' e := by
  obtain ⟨n, a⟩ := x
  obtain ⟨-, -, hmembers, hnode, hothers⟩ := step_cases hstep
  intro htype hat
  obtain ⟨m, hm, change, hchange, hconfig⟩ := h htype hat
  refine ⟨m, hmembers ▸ hm, change, ?_, hconfig⟩
  by_cases hmn : m = n
  · subst hmn
    exact Threads.changes_subset hnode hchange
  · rw [hothers m hmn]
    exact hchange

/-- Each node is configured as it should be. -/
theorem configured_of_run
    (hrun : Run step (ChangesAlone committed) (.init members config threshold) c) (b : NodeId) :
    (c.nodes b).Configured config committed := by
  have hnode : Run Threads.step (Threads.ChangesAlone committed)
      ((init members config threshold : ThreadedCluster σ).nodes b) (c.nodes b) := node_run hrun b
  exact .of_run hnode

/-- A change is asked for with the entry that is proposed for it. -/
theorem asked_of_proposes {n : NodeId} {a : Threads.Action} {k : Stretch} {e : LogEntry}
    (hconfigured : (c.nodes n).Configured config committed)
    (hok : (c.nodes n).ChangesAlone committed a) (hstep : c.step (n, a) = some c')
    (hk : (c.nodes n).running a = some k) (hproposes : k.Proposes (c.nodes n).node e) :
    Asked config committed c' e := by
  obtain ⟨hn, -, hmembers, hnode, -⟩ := step_cases hstep
  intro htype hat
  cases a with
  | start | restart => cases hk
  | run i =>
      cases hproposes with
      | plain data type =>
          -- whoever proposes without computing a configuration proposes none
          obtain ⟨_, h, -⟩ | ⟨j, k', ks, h, hi, -⟩ | ⟨h, -⟩ := Threads.step_cases hnode
          · cases h
          · cases h
            obtain rfl := Option.some.inj ((Threads.running_of_getElem? hi).symm.trans hk)
            exact absurd htype (hconfigured.proposals.head hi)
          · cases h
      | change change seen hrole =>
          -- the condition: the configuration it read is the one before its entry
          obtain ⟨rfl, hfits, hreach, hplain⟩ := hok.2.1 _ hk hrole hat
          refine ⟨n, hmembers ▸ hn, change,
            Threads.mem_changes_of_proposeChange hk hrole hnode, ?_⟩
          have hbefore : (c.nodes n).node.config =
              configAt config committed (c.nodes n).node.log.lastIndex :=
            hconfigured.config.trans (configAt_of_plain hreach hplain).symm
          rw [show (RaftNode.newEntry _ _ _).index - 1 = (c.nodes n).node.log.lastIndex from rfl,
            ← hbefore]
          exact config?_encode hfits _ _

end ThreadedCluster

/-- **Membership changes by one server at a time**: in every run that meets
`Threads.ChangesAlone` at every node, a configuration entry changes the
configuration of a node that applies it by exactly the change some member was asked
for with this entry, so that no change before it is undone and the majorities before
and after share a voter. -/
theorem one_change_at_a_time {members : List NodeId} {config : ClusterConfig} {threshold : Nat}
    {committed : List LogEntry} {c c' : ThreadedCluster σ}
    (hrun : Run ThreadedCluster.step (ThreadedCluster.ChangesAlone committed)
      (.init members config threshold) c)
    {n : NodeId} {i : Nat} {e : LogEntry} {rest : List LogEntry}
    (hrunning : (c.nodes n).running (.run i) = some (.applyLoop (e :: rest)))
    (htype : e.type = .config) (hstep : c.step (n, .run i) = some c') :
    ∃ m ∈ c.members, ∃ change, (e, change) ∈ (c.nodes m).changes ∧
      (c'.nodes n).node.config = change.apply (c.nodes n).node.config ∧
      ∀ q q', IsMajority (c.nodes n).node.config.voters q →
        IsMajority (c'.nodes n).node.config.voters q' → ∃ v, v ∈ q ∧ v ∈ q' := by
  have hconfigured := ThreadedCluster.configured_of_run hrun n
  -- every Config entry at its place was asked for by some member
  have hholds := ThreadedCluster.holds_of_run (P := ThreadedCluster.Asked config committed) hrun
    (fun _ _ _ _ _ _ hstep _ h => h.step hstep)
    (fun _ n _ _ hrun hok hstep _ hk _ hproposes => ThreadedCluster.asked_of_proposes
      (ThreadedCluster.configured_of_run hrun n) hok hstep hk hproposes) n
  obtain ⟨-, -, -, hnode, -⟩ := ThreadedCluster.step_cases hstep
  obtain ⟨_, h, -⟩ | ⟨j, k, ks, h, hi, hafter⟩ | ⟨h, -⟩ := Threads.step_cases hnode
  · contradiction
  · cases h
    obtain rfl := Option.some.inj ((Threads.running_of_getElem? hi).symm.trans hrunning)
    obtain ⟨hindex, hat⟩ := hconfigured.next hi
    -- it is applied on top of the configuration it was computed from
    have hbefore : e.index - 1 = (c.nodes n).reached := by omega
    obtain ⟨m, hm, change, hchange, hdecoded⟩ :=
      hholds.pending.head hi e List.mem_cons_self htype (by rw [hbefore]; exact hat)
    rw [hbefore, ← hconfigured.config] at hdecoded
    have hconfig : (c'.nodes n).node.config = change.apply (c.nodes n).node.config := by
      rw [hafter]
      change ((c.nodes n).node.applyOne e).1.config = _
      rw [(c.nodes n).node.applyOne_config, hdecoded, Option.getD_some]
    refine ⟨m, hm, change, hchange, hconfig, fun q q' hq hq' => ?_⟩
    rw [hconfig] at hq'
    exact Change.majorities_meet hq hq'
  · contradiction

open Threads.Action (start run)

/-- Node 1 is elected by node 2 and asked to add node 4. -/
def changeProposed : ThreadedCluster KvStore :=
  replay ThreadedCluster.step (.init [1, 2, 3] ⟨[1, 2, 3], []⟩ 1000)
    ([start .timeout, run 0].map (Prod.mk 1) ++
      ([start (.rpc (.requestVote ⟨1, 1, 0, 0⟩ 2))] ++ Threads.runs 0 3).map (Prod.mk 2) ++
      ([start (.reply 2 (.requestVote ⟨1, 1, 0, 0⟩ 2 ⟨1, true⟩))] ++ Threads.runs 1 4 ++
        [start (.changeServer (.add 4 []))] ++ Threads.runs 2 3).map (Prod.mk 1))

/-- Node 2 takes and acknowledges the entry, node 1 applies it and tells node 2,
which is about to apply it as well. -/
def changeReplicated : ThreadedCluster KvStore :=
  replay ThreadedCluster.step changeProposed
    (([start .heartbeat] ++ Threads.runs 3 4).map (Prod.mk 1) ++
      ([start (.rpc (.appendEntries ⟨1, 1, 0, 0, joining, 0⟩))] ++ Threads.runs 1 6).map
        (Prod.mk 2) ++
      ([start (.reply 2 (.appendEntries ⟨1, 1, 0, 0, joining, 0⟩ ⟨1, true, 2, 0, 0⟩))] ++
        Threads.runs 4 7 ++ [start .heartbeat] ++ Threads.runs 5 4).map (Prod.mk 1) ++
      ([start (.rpc (.appendEntries ⟨1, 1, 2, 1, [], 2⟩))] ++ Threads.runs 2 6).map (Prod.mk 2))

theorem one_change_at_a_time_of_changeReplicated :
    let after := replay ThreadedCluster.step changeReplicated [(2, run 2)]
    (changeReplicated.nodes 2).node.config.voters = [1, 2, 3] ∧
      (after.nodes 2).node.config.voters = [1, 2, 3, 4] ∧
      ∃ m ∈ changeReplicated.members, ∃ e change, (e, change) ∈ (changeReplicated.nodes m).changes ∧
        (after.nodes 2).node.config = change.apply (changeReplicated.nodes 2).node.config := by
  have hrun : Run ThreadedCluster.step (ThreadedCluster.ChangesAlone joining)
      (.init [1, 2, 3] ⟨[1, 2, 3], []⟩ 1000) changeReplicated :=
    .trans (run_replay (by decide +kernel) : Run _ _ _ changeProposed)
      (run_replay (by decide +kernel))
  have hrunning : (changeReplicated.nodes 2).running (.run 2) = some (.applyLoop
      [⟨1, 2, .config, (ClusterConfig.mk [1, 2, 3, 4] [(4, [])]).encode⟩]) := by decide +kernel
  obtain ⟨m, hm, change, hchange, hconfig, -⟩ :=
    one_change_at_a_time hrun hrunning rfl (step_replay (by decide +kernel))
  exact ⟨by decide +kernel, by decide +kernel, m, hm, _, change, hchange, hconfig⟩

/-- Node 1 is asked to add node 4 and then node 5; node 2 acknowledges both
entries at once, and its callback has applied the first one. -/
def changesClaimed : Threads KvStore :=
  replay Threads.step firstOfThree
    ([start .timeout, run 0,
      start (.reply 2 (.requestVote ⟨1, 1, 0, 0⟩ 2 ⟨1, true⟩))] ++ Threads.runs 1 4 ++
      [start (.changeServer (.add 4 []))] ++ Threads.runs 2 3 ++
      [start (.changeServer (.add 5 []))] ++ Threads.runs 3 3 ++
      [start (acknowledges 2 3)] ++ Threads.runs 4 7)

/-- The second entry was computed before the first one was applied, and takes
node 4 out again. -/
theorem second_change_undoes_first :
    Run Threads.step (fun _ _ => True) firstOfThree changesClaimed ∧
      changesClaimed.changes.map Prod.snd = [.add 4 [], .add 5 []] ∧
      changesClaimed.running (.run 4) = some (.applyLoop
        [⟨1, 3, .config, (ClusterConfig.mk [1, 2, 3, 5] [(5, [])]).encode⟩]) ∧
      changesClaimed.step (.run 4) = some (replay Threads.step changesClaimed [.run 4]) ∧
      changesClaimed.node.config.voters = [1, 2, 3, 4] ∧
      (replay Threads.step changesClaimed [.run 4]).node.config.voters = [1, 2, 3, 5] ∧
      ∀ x ∈ changesClaimed.changes, (replay Threads.step changesClaimed [.run 4]).node.config ≠
        x.2.apply changesClaimed.node.config := by
  refine ⟨run_replay (by decide +kernel), by decide +kernel, by decide +kernel,
    step_replay (by decide +kernel), ?_⟩
  refine ⟨by decide +kernel, by decide +kernel, by decide +kernel⟩

end KvRaft
