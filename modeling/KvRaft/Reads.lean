import KvRaft.Safety

/-!
# KvRaft.Reads

Reads through `linearizableReadBarrier`.  The barrier notes the commit index,
broadcasts and waits until that index is applied; it does not wait for an
answer to the broadcast.

* `read_sees_committed` — the barrier shows every entry committed before it
  began, if it began on a leader that is `Unsuperseded` and has `CommittedOwnTerm`;
* `deposed_leader_reads` — a leader that others have replaced lets a read pass
  that misses what they committed.
-/

namespace KvRaft

open Replica

variable {σ : Type}

namespace Cluster

/-- A majority of the node's voters have seen no term later than its own. -/
def Unsuperseded (c : Cluster σ) (n : NodeId) : Prop :=
  (c.nodes n).majority ≤ ((c.nodes n).config.voters.filter fun v =>
    (c.nodes v).log.currentTerm ≤ (c.nodes n).log.currentTerm).length

/-- The node has committed an entry of its own term. -/
def CommittedOwnTerm (c : Cluster σ) (n : NodeId) : Prop :=
  (c.nodes n).log.termAt (c.nodes n).commitIndex = (c.nodes n).log.currentTerm

instance (c : Cluster σ) (n : NodeId) : Decidable (c.Unsuperseded n) :=
  inferInstanceAs (Decidable (_ ≤ _))

instance (c : Cluster σ) (n : NodeId) : Decidable (c.CommittedOwnTerm n) :=
  inferInstanceAs (Decidable (_ = _))

end Cluster

/-! ## What the conditions mean in the protocol -/

namespace Sim

variable {k : Scope} {voters : List NodeId} {c : Cluster σ} {s : Ghost} {n : NodeId}

/-- No leader was elected in a term later than that of the node. -/
theorem leader_le_of_unsuperseded (h : Sim k voters c s) (hvoters : voters.Nodup)
    (hq : c.Unsuperseded n) {u : Nat} (hu : s.leader u ≠ none) : u ≤ s.term n := by
  have hE := h.global.elections
  obtain ⟨b, hb⟩ := Option.ne_none_iff_exists'.mp hu
  have hvi := (h.node n).votes
  rw [Cluster.Unsuperseded, RaftNode.majority, hvi.config] at hq
  have hmaj : IsMajority voters
      (voters.filter fun v => (c.nodes v).log.currentTerm ≤ (c.nodes n).log.currentTerm) :=
    ⟨hvoters.filter _, fun v hv => (List.mem_filter.mp hv).1, by omega⟩
  -- one of them voted for the leader
  obtain ⟨v, hv, hv'⟩ := (hE.won u b hb).meet hmaj
  have hvote := hE.vote_le v u b (hE.tally_vote b u v hv)
  have hle := (List.mem_filter.mp hv').2
  rw [decide_eq_true_eq, (h.node v).votes.term, hvi.term] at hle
  exact Nat.le_trans hvote hle

/-- What anyone has committed lies within the commit index of a leader that
was not superseded and has committed an entry of its own term. -/
theorem committed_length_le (h : Sim .commits voters c s) (hvoters : voters.Nodup)
    (hr : (c.nodes n).role = .leader) (hq : c.Unsuperseded n) (hown : c.CommittedOwnTerm n)
    {t : Nat} {p : List LogEntry} (hp : Committed s t p) : p.length ≤ (c.nodes n).commitIndex := by
  have hg := h.global
  have hE := hg.elections
  have hL := hg.logs (by simp)
  have hC := hg.commits rfl
  have hvi := (h.node n).votes
  have hrep := ((h.node n).logs (by simp)).log
  have hl := hvi.leader hr
  have hpos := (hE.leader_le _ n hl).1
  obtain ⟨hlog, -⟩ := hL.lead _ n hl rfl
  obtain ⟨u, hu, hpre⟩ := hp
  by_cases hun : s.leader u = none
  · rw [hC.commit_unled hE hun, List.take_zero, List.prefix_nil] at hpre
    rw [hpre]
    exact Nat.zero_le _
  rcases Nat.lt_or_ge u (s.term n) with hlt | hge
  · -- an earlier leader's commits were there when the node was elected
    have hel := hpre.trans (leader_complete hE hL hC (s.term n) hlt (by simp [hl]))
    rw [Cluster.CommittedOwnTerm, hvi.term] at hown
    have hsnap : (c.nodes n).log.snapshotIndex ≤ (c.nodes n).commitIndex := by
      by_contra hlt'
      rw [PersistentLog.Represents.termAt_of_lt (by omega)] at hown
      omega
    rw [hrep.termAt hsnap, hlog] at hown
    exact Nat.le_of_lt (Nat.lt_of_le_of_lt hel.length_le (hL.elected_length_lt hown hpos))
  · have hle := h.leader_le_of_unsuperseded hvoters hq hun
    have heq : u = s.term n := Nat.le_antisymm hle hge
    subst heq
    have hled := (h.node n).led rfl hr
    have := hpre.length_le
    rw [List.length_take] at this
    omega

/-- An entry up to a node's commit index is one of what is committed. -/
theorem committed_at (h : Sim .commits voters c s) {i : Nat} {e : LogEntry}
    (hcommit : i ≤ (c.nodes n).commitIndex) (he : (c.nodes n).log.entryAt i = some e) :
    0 < i ∧ ∃ t p, Committed s t p ∧ i ≤ p.length ∧ p[i - 1]? = some e := by
  obtain ⟨hpos, hat⟩ := ((h.node n).logs (by simp)).log.getElem?_of_entryAt he
  have hlt := (List.getElem?_eq_some_iff.mp hat).1
  refine ⟨hpos, _, _, ((h.node n).commits rfl).committed, ?_, ?_⟩
  · rw [List.length_take]
    omega
  · rw [List.getElem?_take_of_lt (by omega), hat]

end Sim

/-! ## Reads -/

variable [StateMachine σ]

/-- **The barrier waits for every committed entry** in a run whose deliveries are safe,
if it begins on a leader that a majority has not superseded and that has committed an
entry of its own term: when the target is applied, so is every entry that was committed
before.  What a read then finds is what these entries wrote only as far as the node
applied them itself: of an entry below its snapshot it has what the snapshot says. -/
theorem read_sees_committed (S : Setup) {c₀ c₁ c₂ c₃ : Cluster σ} {n m : NodeId} {target i : Nat}
    {e : LogEntry}
    (hbefore : Run Cluster.step (fun c a => c.Steady a ∧ c.SafeDelivery a) S.start c₀)
    (hcommit : i ≤ (c₀.nodes m).commitIndex) (he : (c₀.nodes m).log.entryAt i = some e)
    (huntil : Run Cluster.step (fun c a => c.Steady a ∧ c.SafeDelivery a) c₀ c₁)
    (htarget : (c₁.nodes n).readTarget = some target) (hunsuperseded : c₁.Unsuperseded n)
    (hown : c₁.CommittedOwnTerm n) (hbegin : c₁.step (.readBarrier n) = some c₂)
    (hwait : Run Cluster.step (fun c a => c.Steady a ∧ c.SafeDelivery a) c₂ c₃)
    (hreturn : target ≤ (c₃.nodes n).lastApplied) :
    i ≤ (c₃.nodes n).lastApplied ∧
      ((c₃.nodes n).log.snapshotIndex < i → ∃ o ∈ (c₃.nodes n).applied, o.entry = e) := by
  have hfollowed : ∀ (c : Cluster σ) a, c.Steady a ∧ c.SafeDelivery a →
      c.Followed .commits a := fun _ _ h => .commits h.1 h.2
  have hnodup := S.voters_nodup
  obtain ⟨s₀, h₀⟩ := Sim.of_run S (hbefore.mono hfollowed)
  obtain ⟨s₁, hx₁, h₁⟩ := h₀.run hnodup S.voters_ne_nil (huntil.mono hfollowed)
  have hok : c₁.Followed .commits (.readBarrier n) := .commits ⟨rfl, rfl⟩ nofun
  obtain ⟨s₃, hx₃, h₃⟩ := h₁.run hnodup S.voters_ne_nil
    (.trans (.single hok hbegin) (hwait.mono hfollowed))
  have hk : Scope.commits ≠ .votes := by simp
  -- the entry is committed when the barrier begins, so it is at or below the target
  obtain ⟨hpos, t, p, hp, hi, hatp⟩ := h₀.committed_at hcommit he
  obtain ⟨hr, htarget⟩ : (c₁.nodes n).role = .leader ∧ (c₁.nodes n).commitIndex = target := by
    simpa [RaftNode.readTarget] using htarget
  have hle := h₁.committed_length_le hnodup hr hunsuperseded hown (hp.mono hx₁)
  refine ⟨by omega, fun hsnap => ?_⟩
  -- what the node has applied there is the same entry
  have hm₃ := (h₃.node n).commits rfl
  have hg₃ := h₃.global
  have hbase := Nat.le_trans hm₃.applied_le ((hg₃.logs hk).base_le n)
  have hat₃ : (s₃.log n)[i - 1]? = some (s₃.log n)[i - 1] := List.getElem?_eq_getElem (by omega)
  have hsame := (hp.mono (hx₁.trans hx₃)).getElem?_eq hg₃.elections (hg₃.logs hk) (hg₃.commits rfl)
    hm₃.applied_committed hatp (by rw [List.getElem?_take_of_lt (by omega), hat₃])
  have hmem := hm₃.covered (i - 1) _ (by omega) (by omega) hat₃
  rw [← hsame] at hmem
  simpa using hmem

theorem read_sees_committed_put :
    ∃ o ∈ ((replay Cluster.step committed [.readBarrier 1]).nodes 1).applied,
      o.entry = ⟨1, 2, .command, putCommand⟩ := by
  have hrun : Run Cluster.step (fun c a => c.Steady a ∧ c.SafeDelivery a)
      threeNodes.start committed :=
    .trans (run_replay (by decide +kernel) : Run _ _ _ elected) (run_replay (by decide +kernel))
  have hbegin : committed.step (.readBarrier 1)
      = some (replay Cluster.step committed [.readBarrier 1]) := rfl
  exact (read_sees_committed threeNodes (n := 1) (m := 1) (i := 2) hrun (by decide +kernel)
    (by decide +kernel) (.refl _) rfl (by decide +kernel) (by decide +kernel) hbegin (.refl _)
    (by decide +kernel)).2 (by decide +kernel)

/-- Node 2 replaces node 1, which does not hear of it, and commits a command
with node 3. -/
def deposed : Cluster KvStore :=
  replay Cluster.step elected
    [.timeout 2, .deliver 4, .reply 0, .propose 2 putCommand, .heartbeat 2, .deliver 7, .reply 0]

/-- A deposed leader still serves reads: its target is an old commit index, and
nothing tells it of the entry the new leader has committed. -/
theorem deposed_leader_reads :
    Run Cluster.step (fun c a => c.Steady a ∧ c.SafeDelivery a) threeNodes.start deposed ∧
      (deposed.nodes 2).role = .leader ∧ 2 ≤ (deposed.nodes 2).commitIndex ∧
      (deposed.nodes 2).log.entryAt 2 = some ⟨2, 2, .command, putCommand⟩ ∧
      deposed.step (.readBarrier 1) = some (replay Cluster.step deposed [.readBarrier 1]) ∧
      (∃ target, (deposed.nodes 1).readTarget = some target ∧
        target ≤ ((replay Cluster.step deposed [.readBarrier 1]).nodes 1).lastApplied) ∧
      ((replay Cluster.step deposed [.readBarrier 1]).nodes 1).lastApplied < 2 ∧
      ∀ o ∈ ((replay Cluster.step deposed [.readBarrier 1]).nodes 1).applied,
        o.entry.index ≠ 2 := by
  refine ⟨.trans (run_replay (by decide +kernel) : Run _ _ _ elected)
    (run_replay (by decide +kernel)),
    by decide +kernel, by decide +kernel, by decide +kernel, rfl, ⟨0, rfl, Nat.zero_le _⟩,
    by decide +kernel, by decide +kernel⟩

end KvRaft
