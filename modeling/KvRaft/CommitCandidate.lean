import KvRaft.CommitQuorum
import Mathlib.Order.Bounds.Basic

/-!
# KvRaft.CommitCandidate

`tryAdvanceCommitIndex` looks at the right index.  Position `voters.size() / 2`
of the match indices, sorted downwards, holds the largest index that more than
half of the voters have, whatever the size of the cluster and whatever values
coincide (`sortedMatches_iff_hasQuorum`), so it commits that index or, by the rule
on terms, nothing at all, and misses none it may commit (`commits_majority_index`).
-/

namespace KvRaft

namespace RaftNode

variable {σ : Type} {n : RaftNode σ}

/-- A leader that has a match index for its voters and for no one else, none of
them beyond its log. -/
structure TracksVoters (n : RaftNode σ) : Prop where
  role : n.role = .leader
  nodup : n.config.voters.Nodup
  self : n.id ∈ n.config.voters
  keys : ∀ v, v ∈ n.matchIndex ↔ v ∈ n.config.voters
  le_lastIndex : ∀ p ∈ n.matchIndex.entries, p.2 ≤ n.log.lastIndex

/-- How far a voter's log is known to reach. -/
def held (n : RaftNode σ) (v : NodeId) : Nat :=
  if v = n.id then n.log.lastIndex else (n.matchIndex.lookup v).getD 0

namespace TracksVoters

/-- The leader sorts one value a voter. -/
theorem perm (h : n.TracksVoters) :
    (n.log.lastIndex :: (n.matchIndex.entries.filter (·.1 ≠ n.id)).map (·.2)).Perm
      (n.config.voters.map n.held) := by
  set peers := n.matchIndex.entries.filter (·.1 ≠ n.id) with hpeers
  -- the tracked peers apart from the node itself
  have hmem (v : NodeId) : v ∈ peers.map (·.1) ↔ v ∈ n.matchIndex ∧ v ≠ n.id := by
    rw [AList.mem_keys, AList.keys, List.keys]
    simp only [hpeers, List.mem_map, List.mem_filter, decide_eq_true_eq]
    constructor
    · rintro ⟨p, ⟨hp, hne⟩, rfl⟩
      exact ⟨⟨p, hp, rfl⟩, hne⟩
    · rintro ⟨⟨p, hp, rfl⟩, hne⟩
      exact ⟨p, ⟨hp, hne⟩, rfl⟩
  have hnodup : (n.id :: peers.map (·.1)).Nodup := by
    refine List.nodup_cons.mpr ⟨fun hself => ((hmem _).mp hself).2 rfl, ?_⟩
    exact n.matchIndex.nodupKeys.sublist List.filter_sublist
  -- with the node they are the voters, in some order
  have hvoters : (n.id :: peers.map (·.1)).Perm n.config.voters := by
    rw [List.perm_ext_iff_of_nodup hnodup h.nodup]
    intro v
    rw [List.mem_cons, hmem, h.keys]
    by_cases hv : v = n.id
    · simp [hv, h.self]
    · simp [hv]
  -- and each one counts with what it holds
  have hvalues : (n.id :: peers.map (·.1)).map n.held = n.log.lastIndex :: peers.map (·.2) := by
    rw [List.map_cons, List.map_map, held, if_pos rfl]
    congr 1
    refine List.map_congr_left fun p hp => ?_
    obtain ⟨hp, hne⟩ := List.mem_filter.mp hp
    have hlookup : n.matchIndex.lookup p.1 = some p.2 :=
      List.mem_dlookup n.matchIndex.nodupKeys hp
    simp [held, hlookup, of_decide_eq_true hne]
  rw [← hvalues]
  exact hvoters.map _

theorem lookup_le (h : n.TracksVoters) (v : NodeId) :
    (n.matchIndex.lookup v).getD 0 ≤ n.log.lastIndex := by
  cases hlookup : n.matchIndex.lookup v with
  | none => exact Nat.zero_le _
  | some j => exact h.le_lastIndex ⟨v, j⟩ (AList.mem_lookup_iff.mp hlookup)

theorem hasQuorum_iff (h : n.TracksVoters) (i : Nat) :
    n.HasQuorum i ↔
      n.config.voters.length < 2 * n.config.voters.countP fun v => decide (i ≤ n.held v) := by
  unfold HasQuorum
  rw [List.countP_congr fun v _ => ?_]
  have hle := h.lookup_le v
  unfold held
  simp only [decide_eq_true_eq]
  by_cases hv : v = n.id
  · -- the leader's own match index does not exceed its log
    simp only [hv, true_and, if_true] at hle ⊢
    omega
  · simp [hv]

/-- What a majority holds, the leader has. -/
theorem le_of_hasQuorum (h : n.TracksVoters) {i : Nat} (hi : n.HasQuorum i) :
    i ≤ n.log.lastIndex := by
  have hpos : 0 < n.config.voters.countP fun v => decide (i ≤ n.held v) := by
    rw [h.hasQuorum_iff] at hi
    omega
  obtain ⟨v, -, hv⟩ := List.countP_pos_iff.mp hpos
  have hle := h.lookup_le v
  have hheld := of_decide_eq_true hv
  unfold held at hheld
  split at hheld <;> omega

/-- **The candidate is the majority index**: the value at the middle of the sorted
match indices exists and reaches exactly what more than half of the voters hold. -/
theorem sortedMatches_iff_hasQuorum (h : n.TracksVoters) :
    ∃ N, n.sortedMatches[n.config.voters.length / 2]? = some N ∧ ∀ i, n.HasQuorum i ↔ i ≤ N := by
  have hlen : n.sortedMatches.length = n.config.voters.length := by
    rw [sortedMatches, List.length_insertionSort, h.perm.length_eq, List.length_map]
  have hpos := List.length_pos_of_mem h.self
  obtain ⟨N, hN⟩ : ∃ N, n.sortedMatches[n.config.voters.length / 2]? = some N :=
    ⟨_, List.getElem?_eq_getElem (by omega)⟩
  refine ⟨N, hN, fun i => ?_⟩
  rw [h.hasQuorum_iff, le_insertionSort_iff_lt_countP hN, h.perm.countP_eq, List.countP_map]
  change _ < 2 * List.countP ((fun z => decide (i ≤ z)) ∘ n.held) n.config.voters ↔ _
  omega

end TracksVoters

variable [StateMachine σ]

theorem tryAdvanceCommitIndex_commitIndex (hrole : n.role = .leader) {N : Nat}
    (hN : n.sortedMatches[n.config.voters.length / 2]? = some N) :
    n.tryAdvanceCommitIndex.commitIndex =
      if n.commitIndex < N ∧ n.log.termAt N = n.log.currentTerm then N else n.commitIndex := by
  unfold tryAdvanceCommitIndex
  rw [if_neg (not_not.mpr hrole), hN]
  simp only
  split
  · obtain ⟨_, _, _, _, _, _, happly, -⟩ :=
      applyCommittedEntries_eq { n with commitIndex := N }
    rw [happly]
  · rfl

/-- **A leader commits the majority index**: it raises its commit index to the
largest index that more than half of the voters hold, if that is above the commit
index and of the leader's term, and else leaves it alone.  No index of its term
that a majority holds is missed. -/
theorem commits_majority_index (h : n.TracksVoters) (haligned : n.log.Aligned)
    (hascending : n.log.Ascending) (hterms : ∀ e ∈ n.log.entries, e.term ≤ n.log.currentTerm)
    (hsnap : n.log.snapshotIndex ≤ n.commitIndex) :
    ∃ N, IsGreatest { i | n.HasQuorum i } N ∧
      n.tryAdvanceCommitIndex.commitIndex =
        (if n.commitIndex < N ∧ n.log.termAt N = n.log.currentTerm then N else n.commitIndex) ∧
      ∀ i, n.HasQuorum i → n.log.termAt i = n.log.currentTerm →
        i ≤ n.tryAdvanceCommitIndex.commitIndex := by
  obtain ⟨N, hN, hquorum⟩ := h.sortedMatches_iff_hasQuorum
  have hmajority : n.HasQuorum N := (hquorum N).mpr (Nat.le_refl N)
  have hcommit := tryAdvanceCommitIndex_commitIndex h.role hN
  refine ⟨N, ⟨hmajority, fun i hi => (hquorum i).mp hi⟩, hcommit, fun i hi hterm => ?_⟩
  have hiN := (hquorum i).mp hi
  rw [hcommit]
  by_cases hold : i ≤ n.commitIndex
  · split <;> omega
  · -- the terms from `i` to the candidate are all the leader's
    have hreach := h.le_of_hasQuorum hmajority
    have hle := hascending.termAt_le haligned (by omega) hiN hreach
    obtain ⟨e, he, -, heq⟩ := haligned.exists_mem_of_le (i := N) (by omega) hreach
    have := hterms e he
    rw [if_pos ⟨by omega, by omega⟩]
    exact hiN

/-- A leader of four voters with three entries of its term, two of the peers
having all of them. -/
def fourVoters : RaftNode KvStore :=
  { RaftNode.new 1 1000 ⟨[1, 2, 3, 4], []⟩
      ⟨some (1, 1), none, some [⟨1, 1, .noOp, []⟩, ⟨1, 2, .noOp, []⟩, ⟨1, 3, .noOp, []⟩]⟩
      0 [] with
    role := .leader
    matchIndex := ⟨[⟨1, 0⟩, ⟨2, 3⟩, ⟨3, 1⟩, ⟨4, 3⟩], by decide⟩ }

theorem commits_majority_index_of_fourVoters :
    fourVoters.tryAdvanceCommitIndex.commitIndex = 3 ∧
      ∃ N, IsGreatest { i | fourVoters.HasQuorum i } N := by
  have htracks : fourVoters.TracksVoters := ⟨rfl, by decide, by decide, fun _ => Iff.rfl, by decide⟩
  obtain ⟨N, hN, -⟩ :=
    commits_majority_index htracks (by decide) (by decide) (by decide) (by decide)
  exact ⟨by decide, N, hN⟩

end RaftNode

end KvRaft
