import KvRaft.ApplyOrder

/-!
# KvRaft.SnapshotBytes

The bytes that stand next to an index, in `snapshot.bin` and in the snapshots a
leader sends, against the store that the committed entries up to that index
lead to.  `forceSnapshot` reads the index under the lock and the state machine
after it; `sendInstallSnapshotTo` does so with the file.

* `snapshot_matches_index` — the bytes are a snapshot of that store, if nobody
  applies or claims between the two reads and the file stays the same
  (`Threads.ReadsTogether`);
* `snapshot_misses_entries` — otherwise a snapshot can be written for entries
  that were claimed and not yet applied.
-/

namespace KvRaft

open Pool KvStore
open StateMachine (replayed takes)

/-! ## What is written and sent -/

section Carried

variable (committed : List LogEntry)

/-- The bytes are a snapshot of what the committed entries up to `index` lead to. -/
def SnapshotAt (index : Nat) (bytes : Bytes) : Prop :=
  IsSnapshot bytes (replayed (committed.take index))

instance (index : Nat) (bytes : Bytes) : Decidable (SnapshotAt committed index bytes) :=
  inferInstanceAs (Decidable (IsSnapshot _ _))

/-- What a stretch carries was committed, or is a snapshot of what was. -/
def Stretch.Carries : Stretch → Prop
  | .applyLoop toApply => ∀ e ∈ toApply, committed[e.index - 1]? = some e
  | .compactUpTo idx _ bytes => SnapshotAt committed idx bytes
  | _ => True

/-- A snapshot that is sent is one of what was committed. -/
def Output.Carries : Output → Prop
  | .call ⟨_, _, _, .installSnapshot req⟩ => SnapshotAt committed req.lastIncludedIndex req.data
  | _ => True

/-- The conditions under which a snapshot fits its index: the state machine is
read while every claimed entry is applied and `lastApplied` is still the index
that was read; the file is read while the snapshot index is.  What is claimed
was committed, and a received snapshot is one of what was. -/
def Stretch.ReadsTogether (s : Threads KvStore) : Stretch → Prop
  | .takeSnapshot idx _ | .snapshotFor _ _ idx _ => s.Idle ∧ s.node.lastApplied = idx
  | .loadSnapshotBytes _ _ idx _ => s.node.log.snapshotIndex = idx
  | .applyCommittedEntries => ∀ e ∈ s.node.toApply, committed[e.index - 1]? = some e
  | .acceptSnapshot req => SnapshotAt committed req.lastIncludedIndex req.data
  | _ => True

instance (s : Threads KvStore) (k : Stretch) : Decidable (k.ReadsTogether committed s) := by
  rcases k with _ | _
  case takeSnapshot | snapshotFor => exact inferInstanceAs (Decidable (_ ∧ _))
  case loadSnapshotBytes => exact inferInstanceAs (Decidable (_ = _))
  case applyCommittedEntries => exact inferInstanceAs (Decidable (∀ e ∈ _, _ = _))
  case acceptSnapshot => exact inferInstanceAs (Decidable (SnapshotAt _ _ _))
  all_goals exact instDecidableTrue

def Threads.ReadsTogether (s : Threads KvStore) (a : Threads.Action) : Prop :=
  s.InOrder a ∧ ∀ k ∈ s.running a, k.ReadsTogether committed s

instance (s : Threads KvStore) (a : Threads.Action) : Decidable (s.ReadsTogether committed a) :=
  inferInstanceAs (Decidable (_ ∧ ∀ k ∈ s.running a, _))

end Carried

variable {committed : List LogEntry}

theorem Output.carries_of_isPlain {o : Output} (h : o.isPlain = true) : o.Carries committed := by
  rcases o with ⟨_, _, _, _ | _ | _⟩ | _ | _ | _
  all_goals trivial

namespace Stretch

variable {s : Threads KvStore} {k : Stretch}

theorem carries_of_isPlain (h : k.isPlain = true) : k.Carries committed := by
  cases k with
  | applyLoop | compactUpTo => contradiction
  | _ => trivial

/-- What a stretch hands on to those that follow. -/
theorem next_carries (hok : k.ReadsTogether committed s) (hk : k.Carries committed)
    (hsm : s.Idle → SnapshotAt committed s.node.lastApplied s.node.sm.snapshot) :
    ∀ k' ∈ (k.run s.node).next, k'.Carries committed := by
  intro k' hk'
  cases next_follows hk' with
  | claim => exact hok
  | rest e rest => exact fun e' he' => hk e' (List.mem_cons_of_mem e he')
  | compact idx term =>
      obtain ⟨hidle, rfl⟩ := hok
      exact hsm hidle
  | plain hplain => exact carries_of_isPlain hplain
  | _ => trivial

/-- What a stretch sends. -/
theorem out_carries (hok : k.ReadsTogether committed s)
    (hsm : s.Idle → SnapshotAt committed s.node.lastApplied s.node.sm.snapshot)
    (hfile : ∀ bytes, s.node.log.loadSnapshotBytes = some bytes →
      SnapshotAt committed s.node.log.snapshotIndex bytes) :
    ∀ o ∈ (k.run s.node).out, o.Carries committed := by
  intro o ho
  cases out_sends ho with
  | stored peer term idx snapTerm hload =>
      obtain rfl := hok
      exact hfile _ hload
  | taken peer term idx snapTerm =>
      obtain ⟨hidle, rfl⟩ := hok
      exact hsm hidle
  | plain hplain => exact Output.carries_of_isPlain hplain
  | _ => trivial

end Stretch

/-! ## Along a run -/

namespace Threads

variable {s s' : Threads KvStore}

/-- The store is what the committed entries up to the last one that was applied
lead to, and so is every snapshot at its index. -/
structure Snapshots (committed : List LogEntry) (s : Threads KvStore) : Prop where
  ordered : s.Ordered
  sm : Equiv s.node.sm (replayed (committed.take (s.base + s.since.length)))
  file : ∀ f ∈ s.node.log.dir.snapshot, SnapshotAt committed f.index f.bytes
  pending : Every (Stretch.Carries committed) s.threads
  sent : ∀ o ∈ s.out, o.Carries committed

namespace Snapshots

theorem init (id : NodeId) (threshold : Nat) (config : ClusterConfig) :
    Snapshots committed (.init id threshold config) where
  ordered := .init id threshold config
  sm := by
    change Equiv _ (replayed (committed.take 0))
    rw [List.take_zero]
    exact .refl _
  file _ hf := by cases hf
  pending := .nil
  sent := nofun

/-- A snapshot of the store while nobody is applying. -/
theorem idle (h : Snapshots committed s) (hidle : s.Idle) :
    SnapshotAt committed s.node.lastApplied s.node.sm.snapshot := by
  rw [h.ordered.lastApplied_of_idle hidle]
  exact ⟨s.node.sm, h.sm, rfl⟩

/-- The file belongs to the snapshot index. -/
theorem loadSnapshotBytes (h : Snapshots committed s) {bytes : Bytes}
    (hload : s.node.log.loadSnapshotBytes = some bytes) :
    SnapshotAt committed s.node.log.snapshotIndex bytes := by
  obtain ⟨f, hf, rfl⟩ := Option.map_eq_some_iff.mp hload
  have hindex : s.node.log.snapshotIndex = f.index := by
    rw [← h.ordered.synced, PersistentLog.load, hf]
    rfl
  rw [hindex]
  exact h.file f hf

theorem restart (h : Snapshots committed s)
    (hfits : ∀ k, (replayed (committed.take k) : KvStore).Fits) :
    Snapshots committed ⟨⟨s.node.restart, [], s.out⟩,
      s.toHistory.restart s.node.restart.log.snapshotIndex⟩ where
  ordered := h.ordered.restart
  sm := by
    change Equiv s.node.restart.sm (replayed (committed.take s.node.restart.log.snapshotIndex))
    have hsynced : PersistentLog.load s.node.log.dir = s.node.log := h.ordered.synced
    simp only [RaftNode.restart, RaftNode.new, hsynced]
    -- the process starts from the file, or from nothing
    cases hload : s.node.log.loadSnapshotBytes with
    | some bytes => exact (h.loadSnapshotBytes hload).restore (hfits _) _
    | none =>
        have hnone : s.node.log.dir.snapshot = none := Option.map_eq_none_iff.mp hload
        have hindex : s.node.log.snapshotIndex = 0 := by
          rw [← h.ordered.synced, PersistentLog.load, hnone]
          rfl
        rw [hindex, List.take_zero]
        exact .refl _
  file := by
    have hlog : s.node.restart.log = s.node.log := h.ordered.synced
    change ∀ f ∈ s.node.restart.log.dir.snapshot, _
    rw [hlog]
    exact h.file
  pending := .nil
  sent := h.sent

/-- The store and the file after a stretch. -/
theorem ran (h : Snapshots committed s) (hfits : ∀ k, (replayed (committed.take k) : KvStore).Fits)
    {i : Nat} {k : Stretch} {ks : List Stretch} (hi : s.threads[i]? = some (k :: ks))
    (hok : k.ReadsTogether committed s) :
    Equiv (s.ran i k ks).node.sm
        (replayed (committed.take ((s.ran i k ks).base + (s.ran i k ks).since.length))) ∧
      ∀ f ∈ (s.ran i k ks).node.log.dir.snapshot, SnapshotAt committed f.index f.bytes := by
  have hdoes := k.does s.toHistory s.node
  have hcarries := h.pending.head hi
  -- the loop applies the entry that follows what was applied
  have hnext : ∀ e rest, k = .applyLoop (e :: rest) → e.index = s.base + s.since.length + 1 :=
    fun e rest hk => h.ordered.next_index (hk ▸ hi)
  change Equiv (k.run s.node).shared.sm (replayed (committed.take
      ((s.toHistory.after s.node k).base + (s.toHistory.after s.node k).since.length))) ∧
    ∀ f ∈ (k.run s.node).shared.log.dir.snapshot, SnapshotAt committed f.index f.bytes
  generalize (k.run s.node).next.flatMap Stretch.work = w at hdoes
  generalize s.toHistory.after s.node k = h', (k.run s.node).shared = n' at hdoes ⊢
  cases hdoes with
  | keep _ hsame hdata =>
      rw [hsame.base, hsame.since, hdata.sm, hdata.snapshot]
      exact ⟨h.sm, h.file⟩
  | append _ _ _ hsame =>
      rw [hsame.base, hsame.since]
      exact ⟨h.sm, by rw [PersistentLog.appendAndSync_snapshot]; exact h.file⟩
  | accept req =>
      refine ⟨h.sm, ?_⟩
      change ∀ f ∈ (s.node.log.appendAndSync req.entries).dir.snapshot, _
      rw [PersistentLog.appendAndSync_snapshot]
      exact h.file
  -- the bytes that are installed are a snapshot at their index by assumption
  | install req hgt =>
      refine ⟨IsSnapshot.restore hok (hfits _) _, ?_⟩
      change ∀ f ∈ (s.node.log.compactUpTo _ _ _).dir.snapshot, _
      rw [PersistentLog.compactUpTo_snapshot, if_neg (by omega)]
      rintro f ⟨⟩
      exact hok
  | compact idx term bytes =>
      refine ⟨h.sm, ?_⟩
      change ∀ f ∈ (s.node.log.compactUpTo _ _ _).dir.snapshot, _
      rw [PersistentLog.compactUpTo_snapshot]
      -- the file is written only if it is newer, and the bytes were taken at its index
      split
      · exact h.file
      · rintro f ⟨⟩
        exact hcarries
  | claim | store => exact ⟨h.sm, h.file⟩
  | apply e =>
      have hindex := hnext e _ rfl
      -- it is the committed entry at its index
      have hat : committed[s.base + s.since.length]? = some e := by
        have := hcarries e List.mem_cons_self
        rwa [hindex, Nat.add_sub_cancel] at this
      refine ⟨?_, ?_⟩
      · rw [RaftNode.applyOne_sm, List.length_append, List.length_singleton, ← Nat.add_assoc,
          StateMachine.replayed_take_succ hat]
        exact h.sm.takes e
      · obtain ⟨_, _, _, _, hone⟩ := s.node.applyOne_eq e
        rw [hone]
        exact h.file

theorem step (h : Snapshots committed s)
    (hfits : ∀ k, (replayed (committed.take k) : KvStore).Fits) {a : Action}
    (hok : s.ReadsTogether committed a) (hstep : s.step a = some s') : Snapshots committed s' := by
  have hordered := h.ordered.step hok.1 hstep
  obtain ⟨entry, -, rfl⟩ | ⟨i, k, ks, rfl, hi, rfl⟩ | ⟨-, rfl⟩ := step_cases hstep
  · exact { h with
      ordered := hordered
      pending := h.pending.append (Stretch.carries_of_isPlain entry.isPlain) }
  · have hk : k.ReadsTogether committed s := hok.2 k (running_of_getElem? hi)
    obtain ⟨hsm, hfile⟩ := h.ran hfits hi hk
    refine ⟨hordered, hsm, hfile, h.pending.set hi ?_, ?_⟩
    · exact Stretch.next_carries hk (h.pending.head hi) h.idle
    · intro o ho
      rcases List.mem_append.mp ho with ho | ho
      · exact h.sent o ho
      · exact Stretch.out_carries hk h.idle (fun _ => h.loadSnapshotBytes) o ho
  · exact h.restart hfits

end Snapshots

end Threads

/-- **A snapshot's bytes match its index**, in every run whose reads of an index
and of the bytes that go with it meet `Threads.ReadsTogether`: the contents of
`snapshot.bin` and every snapshot that was sent are what the store gives after
exactly the committed entries up to the index. -/
theorem snapshot_matches_index {committed : List LogEntry} {id : NodeId} {threshold : Nat}
    {config : ClusterConfig} {s : Threads KvStore}
    (hfits : ∀ k, (replayed (committed.take k) : KvStore).Fits)
    (hrun : Run Threads.step (Threads.ReadsTogether committed) (.init id threshold config) s) :
    (∀ f ∈ s.node.log.dir.snapshot, SnapshotAt committed f.index f.bytes) ∧
      ∀ c req, .call c ∈ s.out → c.rpc = .installSnapshot req →
        SnapshotAt committed req.lastIncludedIndex req.data := by
  have h := hrun.invariant (P := Threads.Snapshots committed) (.init id threshold config)
    fun _ _ _ h hok hstep => h.step hfits hok hstep
  refine ⟨h.file, fun c req hc hrpc => ?_⟩
  have hsent := h.sent _ hc
  obtain ⟨_, _, _, rpc⟩ := c
  subst hrpc
  exact hsent

/-! ## A snapshot before and after its entries -/

open Threads.Action (start)

/-- After all three entries are applied a snapshot is taken and sent to node 2,
which has none of them. -/
def snapshotSent : Threads KvStore :=
  replay Threads.step appliedAll
    ([start .forceSnapshot] ++ Threads.runs 7 3 ++ [start .heartbeat] ++ Threads.runs 8 5)

theorem snapshot_matches_index_of_snapshotSent :
    ∃ f c req, snapshotSent.node.log.dir.snapshot = some f ∧ f.index = 3 ∧
      .call c ∈ snapshotSent.out ∧ c.rpc = .installSnapshot req ∧ req.lastIncludedIndex = 3 ∧
      SnapshotAt appliedAll.node.log.entries f.index f.bytes ∧
      SnapshotAt appliedAll.node.log.entries req.lastIncludedIndex req.data := by
  have hfits : ∀ k, (replayed (appliedAll.node.log.entries.take k) : KvStore).Fits := fun k => by
    refine .replayed (Nat.lt_of_le_of_lt (List.length_take_le' k _) ?_)
    decide +kernel
  have hrun : Run Threads.step (Threads.ReadsTogether appliedAll.node.log.entries) firstOfThree
      snapshotSent :=
    .trans (run_replay (by decide +kernel) : Run _ _ _ proposedTwice)
      (.trans (run_replay (by decide +kernel) : Run _ _ _ appliedAll)
        (run_replay (by decide +kernel)))
  obtain ⟨hfile, hsent⟩ := snapshot_matches_index hfits hrun
  have hf : snapshotSent.node.log.dir.snapshot =
      some ⟨3, 1, snapshotSent.node.sm.snapshot⟩ := by decide +kernel
  have hc : .call ⟨1, 2, 0, .installSnapshot ⟨1, 1, 3, 1, snapshotSent.node.sm.snapshot⟩⟩ ∈
      snapshotSent.out := by decide +kernel
  exact ⟨_, _, _, hf, rfl, hc, rfl, rfl, hfile _ hf, hsent _ _ hc rfl⟩

/-- The callback of node 3's answer claims the three entries; before it applies
the first of them a snapshot is taken. -/
def snapshotTorn : Threads KvStore :=
  replay Threads.step proposedTwice
    ([start (.reply 3 (.appendEntries (heartbeatReq 3) ⟨1, true, 3, 0, 0⟩))] ++
      Threads.runs 6 3 ++ [start .forceSnapshot] ++ Threads.runs 7 3)

/-- `snapshot.bin` says that it covers the entries up to index 3 and holds an
empty store. -/
theorem snapshot_misses_entries :
    Run Threads.step (fun _ _ => True) firstOfThree snapshotTorn ∧
      .call ⟨1, 3, 0, .appendEntries (heartbeatReq 3)⟩ ∈ proposedTwice.out ∧
      snapshotTorn.node.commitIndex = 3 ∧
      snapshotTorn.node.log.dir.snapshot = some ⟨3, 1, KvStore.empty.snapshot⟩ ∧
      ¬SnapshotAt (heartbeatReq 3).entries 3 KvStore.empty.snapshot := by
  refine ⟨.trans (run_replay (by decide +kernel) : Run _ _ _ proposedTwice)
    (run_replay (by decide +kernel)), ?_⟩
  refine ⟨by decide +kernel, by decide +kernel, by decide +kernel, by decide +kernel⟩

end KvRaft
