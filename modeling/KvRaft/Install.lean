import KvRaft.Effect

/-!
# KvRaft.Install

What `handleInstallSnapshot` does to the state machine and to the log.  It
compares the snapshot with the one the follower has, not with what the follower
has applied, and `compactUpTo` looks at no term:

* the state machine goes back where the snapshot is older than what is applied
  (`install_keeps_applied_iff`);
* entries above the snapshot stay, also those of another branch
  (`install_discards_iff`).
-/

namespace KvRaft

open KvStore
open StateMachine (replayed)

namespace RaftNode

variable {σ : Type} [StateMachine σ]

theorem handleInstallSnapshot_eq {n : RaftNode σ} {req : InstallSnapshotReq}
    (hterm : n.log.currentTerm ≤ req.term) :
    (n.handleInstallSnapshot req).1 =
      if req.lastIncludedIndex ≤ n.log.snapshotIndex then n.becomeFollower req.term req.leaderId
      else (n.becomeFollower req.term req.leaderId).acceptSnapshot req := by
  unfold handleInstallSnapshot
  rw [if_neg (Nat.not_lt_of_le hterm)]
  simp only [becomeFollower_snapshotIndex]
  split <;> rfl

/-! ## The state machine -/

/-- **When installing a snapshot keeps what is applied**: a follower whose store
is the replay of what it has applied, and that gets a snapshot of the replay up
to some index, holds the replay of what it then counts as applied exactly if the
snapshot is not newer than its own, or not older than what it has applied, or
the entries in between make no difference. -/
theorem install_keeps_applied_iff {committed : List LogEntry} {n : RaftNode KvStore}
    {req : InstallSnapshotReq}
    (hsm : Equiv n.sm (replayed (committed.take n.lastApplied)))
    (hterm : n.log.currentTerm ≤ req.term)
    (hdata : IsSnapshot req.data (replayed (committed.take req.lastIncludedIndex)))
    (hfits : (replayed (committed.take req.lastIncludedIndex) : KvStore).Fits) :
    Equiv (n.handleInstallSnapshot req).1.sm
        (replayed (committed.take (n.handleInstallSnapshot req).1.lastApplied)) ↔
      req.lastIncludedIndex ≤ n.log.snapshotIndex ∨ n.lastApplied ≤ req.lastIncludedIndex ∨
        Equiv (replayed (committed.take req.lastIncludedIndex))
          (replayed (committed.take n.lastApplied)) := by
  rw [handleInstallSnapshot_eq hterm]
  split
  · next hcovered => exact iff_of_true hsm (.inl hcovered)
  · next hnew =>
    have hrestored : Equiv (StateMachine.restore n.sm req.data)
        (replayed (committed.take req.lastIncludedIndex)) := hdata.restore hfits n.sm
    change Equiv (StateMachine.restore n.sm req.data)
      (replayed (committed.take (max n.lastApplied req.lastIncludedIndex))) ↔ _
    rw [or_iff_right hnew]
    -- the store is that of the snapshot, the index the larger of the two
    by_cases hle : n.lastApplied ≤ req.lastIncludedIndex
    · rw [Nat.max_eq_right hle]
      exact iff_of_true hrestored (.inl hle)
    · rw [Nat.max_eq_left (Nat.le_of_not_le hle), or_iff_right hle]
      exact ⟨hrestored.symm.trans, hrestored.trans⟩

/-- Two puts of one key. -/
def twoPuts : List LogEntry :=
  [⟨1, 1, .command, (⟨.put, [107], [1], [], 0, 0⟩ : KvCommand).encode⟩,
    ⟨1, 2, .command, (⟨.put, [107], [2], [], 0, 0⟩ : KvCommand).encode⟩]

/-- A follower that has applied the first `k` of them. -/
def appliedPuts (k : Nat) : RaftNode KvStore :=
  { RaftNode.new 2 1000 ⟨[1, 2, 3], []⟩ ⟨some (1, 0), none, some twoPuts⟩ 0 [] with
    sm := replayed (twoPuts.take k)
    commitIndex := k
    lastApplied := k }

/-- The leader's snapshot of the first `k`. -/
def snapshotOfPuts (k : Nat) : InstallSnapshotReq :=
  ⟨1, 1, k, 1, snapshot (replayed (twoPuts.take k))⟩

theorem install_keeps_applied_iff_of_appliedPuts :
    Equiv ((appliedPuts 1).handleInstallSnapshot (snapshotOfPuts 2)).1.sm
      (replayed (twoPuts.take 2)) := by
  have hsm : Equiv (appliedPuts 1).sm (replayed (twoPuts.take (appliedPuts 1).lastApplied)) :=
    .refl _
  have hdata : IsSnapshot (snapshotOfPuts 2).data
      (replayed (twoPuts.take (snapshotOfPuts 2).lastIncludedIndex)) := ⟨_, .refl _, rfl⟩
  have hiff := install_keeps_applied_iff hsm (by decide) hdata (.replayed (by decide))
  exact hiff.mpr (.inr (.inl (by decide)))

/-- **A snapshot rolls the store back**: the follower has applied both puts, gets
the snapshot of the first one, and still counts both as applied. -/
theorem snapshot_rolls_back :
    Equiv (appliedPuts 2).sm (replayed (twoPuts.take (appliedPuts 2).lastApplied)) ∧
      IsSnapshot (snapshotOfPuts 1).data (replayed (twoPuts.take 1)) ∧
      ((appliedPuts 2).handleInstallSnapshot (snapshotOfPuts 1)).1.lastApplied = 2 ∧
      ((appliedPuts 2).handleInstallSnapshot (snapshotOfPuts 1)).1.sm.get [107] = some [1] ∧
      ¬ Equiv ((appliedPuts 2).handleInstallSnapshot (snapshotOfPuts 1)).1.sm
        (replayed (twoPuts.take 2)) := by
  refine ⟨.refl _, ⟨_, .refl _, rfl⟩, by decide +kernel, by decide +kernel, by decide +kernel⟩

/-! ## The log -/

/-- The follower's entry at the index of the snapshot has the term of the
snapshot. -/
def HasSnapshotEntry (n : RaftNode σ) (req : InstallSnapshotReq) : Prop :=
  ∃ e ∈ n.log.entryAt req.lastIncludedIndex, e.term = req.lastIncludedTerm

instance (n : RaftNode σ) (req : InstallSnapshotReq) : Decidable (n.HasSnapshotEntry req) :=
  inferInstanceAs (Decidable (∃ e ∈ n.log.entryAt req.lastIncludedIndex, _))

variable {n : RaftNode σ} {req : InstallSnapshotReq}

/-- An accepted snapshot replaces the entries up to its index and nothing else. -/
theorem handleInstallSnapshot_log (hterm : n.log.currentTerm ≤ req.term)
    (habove : n.log.snapshotIndex < req.lastIncludedIndex) :
    (n.handleInstallSnapshot req).1.log.entries = n.log.entriesAfter req.lastIncludedIndex 0 ∧
      (n.handleInstallSnapshot req).1.log.snapshotTerm = req.lastIncludedTerm := by
  have hsame := SameData.becomeFollower n req.term req.leaderId
  rw [handleInstallSnapshot_eq hterm, if_neg (Nat.not_le_of_lt habove)]
  simp only [acceptSnapshot, PersistentLog.compactUpTo_entries,
    PersistentLog.compactUpTo_snapshotTerm, hsame.entries, hsame.snapshotIndex]
  rw [if_neg (Nat.not_le_of_lt habove), PersistentLog.entriesAfter, if_neg (by omega)]
  exact ⟨rfl, rfl⟩

omit [StateMachine σ] in
/-- No entries lie above an index that the log does not exceed. -/
theorem entriesAfter_eq_nil_iff (h : n.log.Aligned)
    (habove : n.log.snapshotIndex < req.lastIncludedIndex) :
    n.log.entriesAfter req.lastIncludedIndex 0 = [] ↔ n.log.lastIndex ≤ req.lastIncludedIndex := by
  rw [PersistentLog.entriesAfter, if_neg (by omega), h.lastIndex]
  simp only [if_true, List.drop_eq_nil_iff]
  omega

omit [StateMachine σ] in
/-- From the entry of the snapshot on, the terms ascend if they did before. -/
theorem ascending_entriesAfter (habove : n.log.snapshotIndex < req.lastIncludedIndex)
    (hentry : n.HasSnapshotEntry req)
    (hterms : (n.log.entries.map LogEntry.term).Pairwise (· ≤ ·)) :
    (req.lastIncludedTerm ::
      (n.log.entriesAfter req.lastIncludedIndex 0).map LogEntry.term).Pairwise (· ≤ ·) := by
  obtain ⟨e, he, hterm⟩ := hentry
  unfold PersistentLog.entryAt at he
  rw [if_neg (Nat.not_le_of_lt habove)] at he
  obtain ⟨hlt, rfl⟩ := List.getElem?_eq_some_iff.mp he
  have hdrop := List.drop_eq_getElem_cons hlt
  rw [show req.lastIncludedIndex - n.log.snapshotIndex - 1 + 1 =
    req.lastIncludedIndex - n.log.snapshotIndex by omega] at hdrop
  rw [← hterm, PersistentLog.entriesAfter, if_neg (by omega)]
  simp only [if_true]
  rw [← List.map_cons, ← hdrop, List.map_drop]
  exact hterms.drop

/-- **When installing a snapshot discards a conflicting log**: with a snapshot
above its own the follower keeps the entries after the snapshot if it has the
entry the snapshot ends with, and none if it has not, and its terms still ascend
and do not end below the snapshot's, exactly if it has that entry or its log
does not go on. -/
theorem install_discards_iff (h : n.log.Aligned) (hterm : n.log.currentTerm ≤ req.term)
    (habove : n.log.snapshotIndex < req.lastIncludedIndex) :
    ((n.HasSnapshotEntry req → (n.handleInstallSnapshot req).1.log.entries =
          n.log.entriesAfter req.lastIncludedIndex 0) ∧
        (¬ n.HasSnapshotEntry req → (n.handleInstallSnapshot req).1.log.entries = []) ∧
        ((n.log.entries.map LogEntry.term).Pairwise (· ≤ ·) →
          (n.handleInstallSnapshot req).1.log.Ascending ∧
            req.lastIncludedTerm ≤ (n.handleInstallSnapshot req).1.log.lastTerm)) ↔
      n.HasSnapshotEntry req ∨ n.log.lastIndex ≤ req.lastIncludedIndex := by
  obtain ⟨hentries, hsnapshotTerm⟩ := handleInstallSnapshot_log hterm habove
  have hnil := entriesAfter_eq_nil_iff h habove
  constructor
  · -- without the entry nothing may be left, so the log ends at the snapshot
    rintro ⟨-, hdiscards, -⟩
    by_cases hentry : n.HasSnapshotEntry req
    · exact .inl hentry
    · exact .inr (hnil.mp (hentries ▸ hdiscards hentry))
  · intro hwhen
    have hascends (hterms : (n.log.entries.map LogEntry.term).Pairwise (· ≤ ·)) :
        (n.handleInstallSnapshot req).1.log.Ascending := by
      rw [PersistentLog.Ascending, hsnapshotTerm, hentries]
      -- the terms ascend from the snapshot's entry, or there are none
      rcases hwhen with hentry | hshort
      · exact ascending_entriesAfter habove hentry hterms
      · simp [hnil.mpr hshort]
    refine ⟨fun _ => hentries, fun hentry => ?_, fun hterms => ⟨hascends hterms, ?_⟩⟩
    · rw [hentries, hnil.mpr (hwhen.resolve_left hentry)]
    · rw [← hsnapshotTerm]
      exact (hascends hterms).snapshotTerm_le_lastTerm

/-- A follower with three entries of term 1. -/
def threeEntries : RaftNode KvStore :=
  .new 2 1000 ⟨[1, 2, 3], []⟩
    ⟨some (1, 0), none, some [⟨1, 1, .noOp, []⟩, ⟨1, 2, .command, []⟩, ⟨1, 3, .command, []⟩]⟩ 0 []

/-- The snapshot ends with the second of them. -/
theorem install_discards_iff_of_threeEntries :
    let req : InstallSnapshotReq := ⟨2, 1, 2, 1, []⟩
    threeEntries.HasSnapshotEntry req ∧
      (threeEntries.handleInstallSnapshot req).1.log.entries = [⟨1, 3, .command, []⟩] := by
  intro req
  have hentry : threeEntries.HasSnapshotEntry req := by decide
  have habove : threeEntries.log.snapshotIndex < req.lastIncludedIndex := by decide
  have hiff := install_discards_iff (by decide) (by decide) habove
  exact ⟨hentry, (hiff.mpr (.inl hentry)).1 hentry⟩

/-- **A conflicting log survives a snapshot**: the snapshot ends with an entry of
term 2 in the place of the follower's second one, the third one stays on top of
it, and the log ends below the term of the snapshot. -/
theorem snapshot_keeps_conflict :
    let req : InstallSnapshotReq := ⟨2, 1, 2, 2, []⟩
    threeEntries.log.Aligned ∧ threeEntries.log.Ascending ∧ ¬ threeEntries.HasSnapshotEntry req ∧
      (threeEntries.handleInstallSnapshot req).1.log.entries = [⟨1, 3, .command, []⟩] ∧
      ¬ (threeEntries.handleInstallSnapshot req).1.log.Ascending ∧
      (threeEntries.handleInstallSnapshot req).1.log.lastTerm < req.lastIncludedTerm := by
  decide

end RaftNode

end KvRaft
