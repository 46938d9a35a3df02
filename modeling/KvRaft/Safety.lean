import KvRaft.Frame
import KvRaft.Refine.Cluster

/-!
# KvRaft.Safety

What holds in every run of a cluster with fixed membership, whatever is lost,
delayed, reordered or copied and whoever crashes.

* `election_safety` — a term has at most one leader;
* `log_matching` — logs that share an entry share everything below it;
* `state_machine_safety`, `leader_completeness` — no two nodes apply different
  entries at one index, and later leaders hold what earlier ones committed.

The last two need every delivered request to be safe (`Cluster.SafeDelivery`):
`appendAndSync` cuts the log at the first entry of a request even where it
agrees with it, so a request that was overtaken by a longer one takes
acknowledged entries away (`overtaken_diverges`, `overtaken_forgets`).
-/

namespace KvRaft

open Replica

variable {σ : Type} [StateMachine σ]

/-! ## Runs of three nodes -/

def threeNodes : Setup where
  members := [1, 2, 3]
  config := ⟨[1, 2, 3], []⟩
  snapshotThresholdEntries := 10000
  voters_nodup := by decide
  voters_ne_nil := by decide
  members_ne_zero := by decide

/-- A client's PUT. -/
def putCommand : Bytes := (KvCommand.mk .put [107] [118] [] 7 1).encode

/-- Node 1 is elected by node 2. -/
def elected : Cluster KvStore :=
  replay Cluster.step threeNodes.start [.timeout 1, .deliver 0, .reply 0]

/-- It proposes a command and sends it along with its no-op; node 2 gets that
request first, and its answer commits both entries. -/
def committed : Cluster KvStore :=
  replay Cluster.step elected [.propose 1 putCommand, .heartbeat 1, .deliver 3, .reply 0]

/-- Now the older request with the no-op alone reaches node 2, which then
stands for election and gets the vote of node 3. -/
def overtaken : Cluster KvStore :=
  replay Cluster.step committed [.deliver 1, .timeout 2, .deliver 4]

/-- Node 2 is elected and commits its own no-op with node 3. -/
def diverged : Cluster KvStore :=
  replay Cluster.step overtaken
    [.reply 1, .deliver 5, .reply 1, .heartbeat 2, .deliver 6, .reply 1]

/-- Node 1 tells node 2 of its commit. -/
def replicated : Cluster KvStore :=
  replay Cluster.step committed [.heartbeat 1, .deliver 4]

/-- Node 2 stands for election without having seen the older request. -/
def standing : Cluster KvStore :=
  replay Cluster.step committed [.timeout 2, .deliver 5]

/-! ## Elections -/

omit [StateMachine σ] in
/-- What a leader's role means in the protocol, in terms of the node alone. -/
theorem Sim.leader {k : Scope} {voters : List NodeId} {c : Cluster σ} {s : Ghost}
    (h : Sim k voters c s) {n : NodeId} (hn : (c.nodes n).role = .leader) :
    s.leader (c.nodes n).log.currentTerm = some n := by
  have hvi := (h.node n).votes
  rw [hvi.term]
  exact hvi.leader hn

/-- **Election safety**: at any two moments of a run, leaders of one term are
the same node. -/
theorem election_safety (S : Setup) {c c' : Cluster σ}
    (hrun : OnOneRun Cluster.step Cluster.Steady S.start c c') {n m : NodeId}
    (hn : (c.nodes n).role = .leader) (hm : (c'.nodes m).role = .leader)
    (hterm : (c.nodes n).log.currentTerm = (c'.nodes m).log.currentTerm) : n = m := by
  obtain ⟨s, s', hs, hs', hx⟩ : ∃ s s', Sim .votes _ c s ∧ Sim .votes _ c' s' ∧ _ :=
    Sim.of_onOneRun S (hrun.mono fun _ _ h => ⟨h, nofun, nofun⟩)
  have hl := hs.leader hn
  have hl' := hs'.leader hm
  rw [hterm] at hl
  -- the later state remembers both leaders
  rcases hx with hx | hx
  · have := (hx.leader _ _ hl).symm.trans hl'
    exact Option.some.inj this
  · have := hl.symm.trans (hx.leader _ _ hl')
    exact Option.some.inj this

/-- Node 1 leads term 1 after its election and still when the command is committed,
and nobody else does. -/
theorem election_safety_of_committed :
    (elected.nodes 1).role = .leader ∧ (elected.nodes 1).log.currentTerm = 1 ∧
      (committed.nodes 1).role = .leader ∧ (committed.nodes 1).log.currentTerm = 1 ∧
      ∀ m, (committed.nodes m).role = .leader → (committed.nodes m).log.currentTerm = 1 →
        1 = m := by
  have hfirst : Run Cluster.step Cluster.Steady threeNodes.start elected :=
    run_replay (by decide +kernel)
  have hsecond : Run Cluster.step Cluster.Steady elected committed :=
    run_replay (by decide +kernel)
  have hleads : (elected.nodes 1).role = .leader := by decide +kernel
  have hterm : (elected.nodes 1).log.currentTerm = 1 := by decide +kernel
  exact ⟨hleads, hterm, by decide +kernel, by decide +kernel, fun m hm hm' =>
    election_safety threeNodes (.inl ⟨hfirst, hsecond⟩) hleads hm (hterm.trans hm'.symm)⟩

/-! ## Logs -/

/-- The entries up to an index are those the filter keeps. -/
theorem PersistentLog.IndexedFrom.filter_index_le {l : List LogEntry}
    (h : PersistentLog.IndexedFrom 0 l) (i : Nat) : l.filter (·.index ≤ i) = l.take i := by
  conv => lhs; rw [← List.take_append_drop i l, List.filter_append]
  have htake : (l.take i).filter (·.index ≤ i) = l.take i := by
    refine List.filter_eq_self.mpr fun e he => ?_
    obtain ⟨j, hj, rfl⟩ := List.getElem_of_mem he
    have := h.take i j _ (List.getElem?_eq_getElem hj)
    rw [List.length_take] at hj
    simp only [decide_eq_true_eq]
    omega
  have hdrop : (l.drop i).filter (·.index ≤ i) = [] := by
    refine List.filter_eq_nil_iff.mpr fun e he => ?_
    obtain ⟨j, hj, rfl⟩ := List.getElem_of_mem he
    have := h.drop i j _ (List.getElem?_eq_getElem hj)
    simp only [decide_eq_true_eq]
    omega
  rw [htake, hdrop, List.append_nil]

omit [StateMachine σ] in
/-- While no snapshot is taken, what a node holds up to one of its entries is
what the leader of that entry's term held. -/
theorem Sim.filter_entries {voters : List NodeId} {c : Cluster σ} {s : Ghost}
    (h : Sim .logs voters c s) {n : NodeId} {e : LogEntry} (he : e ∈ (c.nodes n).log.entries) :
    e.index ≤ (s.hist e.term).length ∧
      (c.nodes n).log.entries.filter (·.index ≤ e.index) = (s.hist e.term).take e.index := by
  have hk : Scope.logs ≠ .votes := by simp
  have hrep := ((h.node n).logs hk).log
  obtain ⟨hclean, hsnap⟩ := (h.node n).uncompacted rfl
  have hentries : (c.nodes n).log.entries = s.log n := by rw [hrep.entries, hsnap, List.drop_zero]
  have hsound := (h.global.logs hk).sound_of_clean hclean
  rw [hentries] at he ⊢
  obtain ⟨hpos, hat⟩ := hrep.indexed.getElem?_of_mem he
  have hpre := hsound _ e hat
  have hidx : e.index - 0 - 1 + 1 = e.index := by omega
  have hlt := (List.getElem?_eq_some_iff.mp hat).1
  have hlen : ((s.log n).take e.index).length = e.index := by rw [List.length_take]; omega
  rw [hidx] at hpre
  refine ⟨?_, ?_⟩
  · have := hpre.length_le
    rwa [hlen] at this
  · rw [hrep.indexed.filter_index_le]
    have := List.prefix_iff_eq_take.mp hpre
    rwa [hlen] at this

/-- **Log matching**: at any two moments of a run without snapshots, two logs
that hold an entry of the same index and term are the same up to that index. -/
theorem log_matching (S : Setup) {c c' : Cluster σ}
    (hrun : OnOneRun Cluster.step (fun c a => c.Steady a ∧ c.NoSnapshots a) S.start c c')
    {n m : NodeId} {e e' : LogEntry} (he : e ∈ (c.nodes n).log.entries)
    (he' : e' ∈ (c'.nodes m).log.entries) (hindex : e.index = e'.index) (hterm : e.term = e'.term) :
    (c.nodes n).log.entries.filter (·.index ≤ e.index)
      = (c'.nodes m).log.entries.filter (·.index ≤ e.index) := by
  obtain ⟨s, s', hs, hs', hx⟩ := Sim.of_onOneRun S (hrun.mono fun _ _ h => .logs h.1 h.2)
  obtain ⟨hlen, heq⟩ := hs.filter_entries he
  obtain ⟨hlen', heq'⟩ := hs'.filter_entries he'
  rw [← hindex, ← hterm] at hlen' heq'
  rw [heq, heq']
  -- the leader's log only grew in between
  rcases hx with hx | hx
  · exact (take_hist_eq hx hlen).symm
  · exact take_hist_eq hx hlen'

theorem log_matching_of_committed :
    (committed.nodes 2).log.entries.filter (·.index ≤ 2)
      = (overtaken.nodes 1).log.entries.filter (·.index ≤ 2) := by
  have hfirst : Run Cluster.step (fun c a => c.Steady a ∧ c.NoSnapshots a)
      threeNodes.start committed :=
    .trans (run_replay (by decide +kernel) : Run _ _ _ elected) (run_replay (by decide +kernel))
  have hsecond : Run Cluster.step (fun c a => c.Steady a ∧ c.NoSnapshots a)
      committed overtaken := run_replay (by decide +kernel)
  have he : (⟨1, 2, .command, putCommand⟩ : LogEntry) ∈ (committed.nodes 2).log.entries := by
    decide +kernel
  have he' : (⟨1, 2, .command, putCommand⟩ : LogEntry) ∈ (overtaken.nodes 1).log.entries := by
    decide +kernel
  exact log_matching threeNodes (.inl ⟨hfirst, hsecond⟩) he he' rfl rfl

/-! ## Applied entries -/

omit [StateMachine σ] in
/-- A committed prefix holds its entries at their indices. -/
theorem Sim.committed_getElem? {voters : List NodeId} {c : Cluster σ} {s : Ghost}
    (h : Sim .commits voters c s) {t : Nat} {p : List LogEntry} (hp : Committed s t p)
    {e : LogEntry} (he : e ∈ p) : 0 < e.index ∧ p[e.index - 1]? = some e := by
  obtain ⟨u, _, hpre⟩ := hp
  have hidx := (h.global.indexed (by simp) u).of_isPrefix
    (hpre.trans ⟨_, List.take_append_drop _ _⟩)
  exact hidx.getElem?_of_mem he

/-- **State machine safety**: in a run whose deliveries are safe, no two nodes
apply different entries at one index. -/
theorem state_machine_safety (S : Setup) {c : Cluster σ}
    (hrun : Run Cluster.step (fun c a => c.Steady a ∧ c.SafeDelivery a) S.start c)
    {n m : NodeId} {o o' : Applied σ} (ho : o ∈ (c.nodes n).applied)
    (ho' : o' ∈ (c.nodes m).applied) (hindex : o.entry.index = o'.entry.index) :
    o.entry = o'.entry := by
  obtain ⟨s, hs⟩ := Sim.of_run S (hrun.mono fun _ _ h => .commits h.1 h.2)
  have hg := hs.global
  obtain ⟨p, hp, hmem⟩ := ((hs.node n).commits rfl).applied o ho
  obtain ⟨q, hq, hmem'⟩ := ((hs.node m).commits rfl).applied o' ho'
  obtain ⟨-, hat⟩ := hs.committed_getElem? hp hmem
  obtain ⟨-, hat'⟩ := hs.committed_getElem? hq hmem'
  rw [← hindex] at hat'
  exact hp.getElem?_eq hg.elections (hg.logs (by simp)) (hg.commits rfl) hq hat hat'

theorem state_machine_safety_of_replicated :
    ∃ o ∈ (replicated.nodes 1).applied, ∃ o' ∈ (replicated.nodes 2).applied,
      o.entry.index = 2 ∧ o'.entry.index = 2 ∧ o.entry = o'.entry := by
  have hrun : Run Cluster.step (fun c a => c.Steady a ∧ c.SafeDelivery a)
      threeNodes.start replicated :=
    .trans (run_replay (by decide +kernel) : Run _ _ _ elected)
      (.trans (run_replay (by decide +kernel) : Run _ _ _ committed)
        (run_replay (by decide +kernel)))
  have hfirst : ∃ o ∈ (replicated.nodes 1).applied, o.entry.index = 2 := by decide +kernel
  have hsecond : ∃ o ∈ (replicated.nodes 2).applied, o.entry.index = 2 := by decide +kernel
  obtain ⟨o, ho, hidx⟩ := hfirst
  obtain ⟨o', ho', hidx'⟩ := hsecond
  exact ⟨o, ho, o', ho', hidx, hidx',
    state_machine_safety threeNodes hrun ho ho' (hidx.trans hidx'.symm)⟩

/-- A request that was overtaken takes a committed entry away, and another is
applied in its place. -/
theorem overtaken_diverges :
    Run Cluster.step Cluster.Steady threeNodes.start diverged ∧
      ∃ o ∈ (diverged.nodes 1).applied, ∃ o' ∈ (diverged.nodes 2).applied,
        o.entry.index = o'.entry.index ∧ o.entry.term ≠ o'.entry.term ∧
          o.entry.type ≠ o'.entry.type ∧ o.entry.data ≠ o'.entry.data := by
  refine ⟨?_, by decide +kernel⟩
  exact .trans (run_replay (by decide +kernel) : Run _ _ _ elected)
    (.trans (run_replay (by decide +kernel) : Run _ _ _ committed)
      (.trans (run_replay (by decide +kernel) : Run _ _ _ overtaken)
        (run_replay (by decide +kernel))))

/-! ## Later leaders -/

omit [StateMachine σ] in
/-- What a node has committed is in the log the leader of a later term was
elected with. -/
theorem Sim.elected_getElem? {voters : List NodeId} {c₁ c₃ : Cluster σ} {s₁ s₃ : Ghost}
    (h₁ : Sim .commits voters c₁ s₁) (h₃ : Sim .commits voters c₃ s₃)
    (hx : Extends s₁ s₃ ∨ Extends s₃ s₁) {a : NodeId} {t i : Nat} {e : LogEntry}
    (hi : i < (c₁.nodes a).commitIndex) (he : (s₁.log a)[i]? = some e) (ht : s₁.term a < t)
    (hled : s₃.leader t ≠ none) : (s₃.hist t)[i]? = some e := by
  obtain ⟨b, hb⟩ := Option.ne_none_iff_exists'.mp hled
  have hcom := ((h₁.node a).commits rfl).committed
  -- the log the leader was elected with is the same in both states
  have hpre : (s₁.log a).take (c₁.nodes a).commitIndex <+: s₃.elected t := by
    have hlater : ∀ {c s}, Sim .commits voters (c : Cluster σ) s →
        Committed s (s₁.term a) ((s₁.log a).take (c₁.nodes a).commitIndex) → s.leader t = some b →
        (s₁.log a).take (c₁.nodes a).commitIndex <+: s.elected t := by
      rintro c s h ⟨u, hu, hp⟩ hl
      have hg := h.global
      exact hp.trans (leader_complete hg.elections (hg.logs (by simp)) (hg.commits rfl) t
        (Nat.lt_of_le_of_lt hu ht) (by simp [hl]))
    rcases hx with hx | hx
    · exact hlater h₃ (hcom.mono hx) hb
    · rw [← hx.elected t b hb]
      exact hlater h₁ hcom (hx.leader t b hb)
  obtain ⟨x, hx⟩ := hpre.trans ((h₃.global.logs (by simp)).elected_isPrefix t)
  have hlt := (List.getElem?_eq_some_iff.mp he).1
  rw [← hx, List.getElem?_append_left (by rw [List.length_take]; omega),
    List.getElem?_take_of_lt hi, he]

/-- **Leader completeness**: in a run without snapshots whose deliveries are
safe, a node that comes to lead holds, at that moment, every entry that a node
of an earlier term, its leader above all, has in its log up to its commit
index. -/
theorem leader_completeness (S : Setup) {c₁ c₂ c₃ : Cluster σ} {act : Action}
    (hrun : StepOnOneRun Cluster.step
      (fun c a => c.Steady a ∧ c.NoSnapshots a ∧ c.SafeDelivery a) S.start c₁ c₂ act c₃)
    {a b : NodeId} {i : Nat} {e : LogEntry}
    (hcommit : i ≤ (c₁.nodes a).commitIndex) (he : (c₁.nodes a).log.entryAt i = some e)
    (hb : (c₂.nodes b).role ≠ .leader) (hb' : (c₃.nodes b).role = .leader)
    (hterm : (c₁.nodes a).log.currentTerm < (c₃.nodes b).log.currentTerm) :
    (c₂.nodes b).log.entryAt i = some e := by
  obtain ⟨s₁, s₃, h₁, h₃, hx⟩ :=
    Sim.of_onOneRun S (hrun.onOneRun.mono fun _ _ h => .commits h.1 h.2.2)
  obtain ⟨_, _, -, hw₃, -⟩ := Sim.of_onOneRun S (hrun.onOneRun.mono fun _ _ h => .logs h.1 h.2.1)
  have hk : Scope.commits ≠ .votes := by simp
  have hsnap₃ := ((hw₃.node b).uncompacted rfl).2
  obtain ⟨hpos, hat⟩ := ((h₁.node a).logs hk).log.getElem?_of_entryAt he
  have ht₁ := (h₁.node a).votes.term
  have ht₃ := (h₃.node b).votes.term
  have hled := h₃.leader hb'
  have hin := h₁.elected_getElem? h₃ hx (by omega) hat (ht₁ ▸ hterm) (by simp [hled])
  -- the new leader's log after the step
  have hlog₃ : (c₃.nodes b).log.entries[i - 1]? = some e := by
    have hlead := ((h₃.global.logs hk).lead _ b hled ht₃.symm).1
    rw [((h₃.node b).logs hk).log.entries, hsnap₃, List.drop_zero, hlead, hin]
  -- before the step it lacked only the no-op of its own term
  obtain ⟨nd, hr, hentries, hsnap, heq⟩ := Cluster.step_elects hrun.taken hb hb'
  have hle : e.term ≤ (c₁.nodes a).log.currentTerm := by
    rw [ht₁]
    exact (h₁.global.logs hk).log_le a e (List.mem_of_getElem? hat)
  rw [heq, RaftNode.becomeLeader_log hr] at hlog₃ hterm hsnap₃
  rw [PersistentLog.appendAndSync_currentTerm] at hterm
  rw [PersistentLog.appendAndSync_snapshotIndex, hsnap] at hsnap₃
  unfold PersistentLog.entryAt
  rw [if_neg (by omega), hsnap₃, Nat.sub_zero, ← hentries]
  refine PersistentLog.getElem?_of_appendAndSync _ hlog₃ fun hnoOp => ?_
  rw [hnoOp] at hle
  exact absurd hle (Nat.not_le_of_lt hterm)

theorem leader_completeness_of_committed :
    (committed.nodes 1).role = .leader ∧
      (standing.nodes 2).log.entryAt 2 = some ⟨1, 2, .command, putCommand⟩ := by
  refine ⟨by decide +kernel, ?_⟩
  have hfirst : Run Cluster.step (fun c a => c.Steady a ∧ c.NoSnapshots a ∧ c.SafeDelivery a)
      threeNodes.start committed :=
    .trans (run_replay (by decide +kernel) : Run _ _ _ elected) (run_replay (by decide +kernel))
  have hrun : StepOnOneRun Cluster.step
      (fun c a => c.Steady a ∧ c.NoSnapshots a ∧ c.SafeDelivery a) threeNodes.start committed
      standing (.reply 0) (replay Cluster.step standing [.reply 0]) :=
    ⟨by decide +kernel, rfl, .inl ⟨hfirst, run_replay (by decide +kernel)⟩⟩
  exact leader_completeness threeNodes hrun (a := 1) (by decide +kernel) (by decide +kernel)
    (by decide +kernel) (by decide +kernel) (by decide +kernel)

/-- Node 2 comes to lead term 2 without the entry that the leader of term 1 has
committed. -/
theorem overtaken_forgets :
    StepOnOneRun Cluster.step (fun c a => c.Steady a ∧ c.NoSnapshots a) threeNodes.start
        committed overtaken (.reply 1) (replay Cluster.step overtaken [.reply 1]) ∧
      (committed.nodes 1).role = .leader ∧ (committed.nodes 1).log.currentTerm = 1 ∧
      2 ≤ (committed.nodes 1).commitIndex ∧
      (committed.nodes 1).log.entryAt 2 = some ⟨1, 2, .command, putCommand⟩ ∧
      (overtaken.nodes 2).role ≠ .leader ∧
      ((replay Cluster.step overtaken [.reply 1]).nodes 2).role = .leader ∧
      ((replay Cluster.step overtaken [.reply 1]).nodes 2).log.currentTerm = 2 ∧
      (overtaken.nodes 2).log.entryAt 2 = none := by
  refine ⟨⟨by decide +kernel, rfl, .inl ⟨?_, run_replay (by decide +kernel)⟩⟩, by decide +kernel⟩
  exact .trans (run_replay (by decide +kernel) : Run _ _ _ elected) (run_replay (by decide +kernel))

end KvRaft
