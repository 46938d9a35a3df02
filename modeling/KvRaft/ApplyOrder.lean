import KvRaft.Aligned
import KvRaft.ThreadEffect

/-!
# KvRaft.ApplyOrder

The order in which the threads of a node apply entries.  `applyCommittedEntries`
claims a batch under the lock and applies it outside.

* `applied_in_order` — entries are applied in the order of their indices and
  none is skipped, if a batch is only claimed, and a snapshot only installed,
  while no other batch is being applied (`Threads.InOrder`);
* `batches_overtake` — otherwise a batch that was claimed later can be applied
  first.
-/

namespace KvRaft

open PersistentLog Pool

variable {σ : Type}

namespace Threads

/-- Every entry that was claimed is applied. -/
def Idle (s : Threads σ) : Prop := s.threads.flatMap (fun ks => ks.flatMap Stretch.work) = []

instance (s : Threads σ) : Decidable s.Idle := inferInstanceAs (Decidable (_ = []))

/-- The `apply` calls of the state machine since it was last restored. -/
def calls (s : Threads σ) : List LogEntry :=
  (s.since.map Applied.entry).filter fun e => e.type = .command

end Threads

/-- The conditions under which threads apply in order: a batch is claimed while
none is being applied; a snapshot is installed while none is being applied, and
reaches what was claimed; accepted entries are consecutive and start above the
snapshot. -/
def Stretch.InOrder (s : Threads σ) : Stretch → Prop
  | .applyCommittedEntries => s.node.toApply = [] ∨ s.Idle
  | .acceptSnapshot req => s.node.log.snapshotIndex < req.lastIncludedIndex →
      s.Idle ∧ s.node.lastApplied ≤ req.lastIncludedIndex
  | .acceptEntries req => RaftNode.consistencyCheck s.node.log req = none → req.entries ≠ [] →
      s.node.log.snapshotIndex ≤ req.prevLogIndex ∧ IndexedFrom req.prevLogIndex req.entries
  | _ => True

instance (s : Threads σ) (k : Stretch) : Decidable (k.InOrder s) := by
  rcases k with _ | _
  case applyCommittedEntries => exact inferInstanceAs (Decidable (_ ∨ _))
  case acceptSnapshot => exact inferInstanceAs (Decidable (_ → _ ∧ _))
  case acceptEntries => exact inferInstanceAs (Decidable (_ → _ → _ ∧ _))
  all_goals exact instDecidableTrue

def Threads.InOrder (s : Threads σ) (a : Threads.Action) : Prop := ∀ k ∈ s.running a, k.InOrder s

instance (s : Threads σ) (a : Threads.Action) : Decidable (s.InOrder a) :=
  inferInstanceAs (Decidable (∀ k ∈ s.running a, _))

/-- Every stretch keeps the log aligned, if accepted entries are consecutive and
start above the snapshot. -/
theorem Stretch.run_aligned [StateMachine σ] {n : RaftNode σ} (h : n.log.Aligned) (h' : History σ)
    {k : Stretch}
    (hacc : ∀ req, k = .acceptEntries req → RaftNode.consistencyCheck n.log req = none →
      req.entries ≠ [] →
      n.log.snapshotIndex ≤ req.prevLogIndex ∧ IndexedFrom req.prevLogIndex req.entries) :
    (k.run n).shared.log.Aligned := by
  have hdoes := k.does h' n
  generalize h'.after n k = h'', (k.run n).shared = n', (k.run n).next.flatMap Stretch.work = w
    at hdoes
  cases hdoes with
  | keep _ _ hdata => exact h.congr hdata.entries hdata.snapshotIndex
  | append data type =>
      refine h.appendAndSync ?_ (Nat.le_refl _) (.singleton rfl)
      rw [h.lastIndex]
      omega
  | accept req hcheck =>
      -- a heartbeat leaves the log as it is
      by_cases hnil : req.entries = []
      · simp only [RaftNode.acceptEntries, hnil]
        exact h
      · obtain ⟨habove, hindexed⟩ := hacc req rfl hcheck hnil
        exact h.appendAndSync habove (RaftNode.prevLogIndex_le h hcheck) hindexed
  | install | compact => exact h.compactUpTo _ _ _
  | claim | store => exact h
  | apply e rest =>
      obtain ⟨_, _, _, _, hone⟩ := n.applyOne_eq e
      rw [hone]
      exact h

namespace Threads

variable [StateMachine σ] {s s' : Threads σ}

/-- What was applied since the last restore and what one thread has yet to
apply are consecutive, and `lastApplied` is the last of them. -/
structure Ordered (s : Threads σ) : Prop where
  aligned : s.node.log.Aligned
  synced : s.node.log.Synced
  claimed : ∃ owner rest, Sole Stretch.work s.threads owner rest ∧
    IndexedFrom s.base (s.since.map Applied.entry ++ rest) ∧
    s.node.lastApplied = s.base + s.since.length + rest.length

namespace Ordered

theorem init (id : NodeId) (threshold : Nat) (config : ClusterConfig) :
    Ordered (Threads.init id threshold config : Threads σ) where
  aligned := .nil 0
  synced := rfl
  claimed := ⟨0, [], ⟨rfl, fun _ _ => rfl⟩, .nil 0, rfl⟩

theorem restart (h : Ordered s) : Ordered ⟨⟨s.node.restart, [], s.out⟩,
    s.toHistory.restart s.node.restart.log.snapshotIndex⟩ := by
  have hlog : s.node.restart.log = s.node.log := h.synced
  refine ⟨hlog ▸ h.aligned, hlog ▸ h.synced, 0, [], ⟨rfl, fun _ _ => rfl⟩, .nil _, rfl⟩

/-- The claims after a stretch. -/
theorem claimed_ran (h : Ordered s) {i : Nat} {k : Stretch} {ks : List Stretch}
    (hi : s.threads[i]? = some (k :: ks)) (hok : k.InOrder s) :
    ∃ owner rest, Sole Stretch.work (s.ran i k ks).threads owner rest ∧
      IndexedFrom (s.ran i k ks).base ((s.ran i k ks).since.map Applied.entry ++ rest) ∧
      (s.ran i k ks).node.lastApplied =
        (s.ran i k ks).base + (s.ran i k ks).since.length + rest.length := by
  obtain ⟨owner, rest, hsole, hindexed, hlast⟩ := h.claimed
  have hlt := (List.getElem?_eq_some_iff.mp hi).1
  have hheld : held Stretch.work s.threads i = k.work ++ ks.flatMap Stretch.work := by
    rw [held, hi]
    rfl
  have hnext : ∀ next : List Stretch, (next ++ ks).flatMap Stretch.work =
      next.flatMap Stretch.work ++ ks.flatMap Stretch.work := fun _ => List.flatMap_append
  have hdoes := k.does s.toHistory s.node
  change ∃ owner rest, Sole Stretch.work (s.threads.set i ((k.run s.node).next ++ ks)) owner rest ∧
    IndexedFrom (s.toHistory.after s.node k).base
      ((s.toHistory.after s.node k).since.map Applied.entry ++ rest) ∧
    (k.run s.node).shared.lastApplied = (s.toHistory.after s.node k).base +
      (s.toHistory.after s.node k).since.length + rest.length
  -- a section that does no work leaves it to its owner
  have hsame : k.work = (k.run s.node).next.flatMap Stretch.work →
      Sole Stretch.work (s.threads.set i ((k.run s.node).next ++ ks)) owner rest := fun hw =>
    hsole.set_same hlt (by rw [hnext, hheld, hw])
  generalize hn' : (k.run s.node).next.flatMap Stretch.work = w at hdoes hsame
  generalize s.toHistory.after s.node k = h', (k.run s.node).shared = n' at hdoes ⊢
  cases hdoes with
  | keep hk hsameh hdata =>
      refine ⟨owner, rest, hsame hk, ?_, ?_⟩
      · rw [hsameh.base, hsameh.since]
        exact hindexed
      · rw [hsameh.base, hsameh.since, hdata.lastApplied]
        exact hlast
  | append data type hk hsameh =>
      refine ⟨owner, rest, hsame hk, ?_, ?_⟩
      · rw [hsameh.base, hsameh.since]
        exact hindexed
      · rw [hsameh.base, hsameh.since]
        exact hlast
  | accept | compact | store => exact ⟨owner, rest, hsame rfl, hindexed, hlast⟩
  | install req hgt =>
      -- nobody holds work, and the snapshot reaches what was applied
      obtain ⟨hidle, hreach⟩ := hok hgt
      have hall := held_of_flatMap_eq_nil hidle
      have hrest : rest = [] := hsole.own ▸ hall owner
      refine ⟨owner, rest, hsame rfl, ?_, ?_⟩
      · rw [hrest]
        exact .nil _
      · rw [hrest]
        exact Nat.max_eq_right hreach
  -- a claim of nothing changes nothing; otherwise nobody may hold work yet
  | claim =>
      by_cases hnil : s.node.toApply = []
      · refine ⟨owner, rest, hsame hnil.symm, hindexed, ?_⟩
        change s.node.lastApplied + s.node.toApply.length = _
        rw [hnil]
        exact hlast
      · have hall := held_of_flatMap_eq_nil (hok.resolve_left hnil)
        have hrest : rest = [] := hsole.own ▸ hall owner
        have hks := hall i
        rw [hheld] at hks
        subst hrest
        rw [List.append_nil] at hindexed
        -- this thread owns the batch, which starts where the applied entries end
        refine ⟨i, s.node.toApply, ?_, hindexed.append ?_, ?_⟩
        · have := Sole.set_idle hall hlt ((Stretch.run s.node .applyCommittedEntries).next ++ ks)
          rwa [hnext, hn', (List.append_eq_nil_iff.mp hks).2, List.append_nil] at this
        · have hat : s.base + s.since.length = s.node.lastApplied := hlast.symm
          rw [List.length_map, hat]
          exact RaftNode.collect_indexed h.aligned _ _
        · change s.node.lastApplied + s.node.toApply.length = _
          rw [hlast]
          rfl
  | apply e =>
      -- only the owner has work, so this is its first entry
      have hne : held Stretch.work s.threads i ≠ [] := by
        rw [hheld]
        exact List.cons_ne_nil _ _
      obtain ⟨rfl, hrest⟩ := hsole.eq_owner hne
      rw [hheld] at hrest
      refine ⟨i, w ++ ks.flatMap Stretch.work, ?_, ?_, ?_⟩
      · have := hsole.set_owner hlt ((Stretch.run s.node (.applyLoop (e :: w))).next ++ ks)
        rwa [hnext, hn'] at this
      · rw [List.map_append, List.append_assoc]
        rw [← hrest] at hindexed
        exact hindexed
      · obtain ⟨_, _, _, _, hone⟩ := s.node.applyOne_eq e
        rw [hone]
        rw [← hrest] at hlast
        simp only [Stretch.work, List.length_append, List.length_cons, List.length_nil] at hlast ⊢
        omega

omit [StateMachine σ] in
/-- Where nobody holds work, `lastApplied` is what was applied. -/
theorem lastApplied_of_idle (h : Ordered s) (hidle : s.Idle) :
    s.node.lastApplied = s.base + s.since.length := by
  obtain ⟨owner, rest, hsole, -, hlast⟩ := h.claimed
  have hrest : rest = [] := hsole.own ▸ held_of_flatMap_eq_nil hidle owner
  rw [hlast, hrest]
  rfl

omit [StateMachine σ] in
/-- The entry that is applied next. -/
theorem next_index (h : Ordered s) {i : Nat} {e : LogEntry} {rest : List LogEntry}
    {ks : List Stretch} (hi : s.threads[i]? = some (.applyLoop (e :: rest) :: ks)) :
    e.index = s.base + s.since.length + 1 := by
  obtain ⟨owner, all, hsole, hindexed, -⟩ := h.claimed
  have hheld : held Stretch.work s.threads i = e :: (rest ++ ks.flatMap Stretch.work) := by
    rw [held, hi]
    rfl
  have hall := (hsole.eq_owner (by rw [hheld]; exact List.cons_ne_nil _ _)).2
  rw [hheld] at hall
  refine hindexed s.since.length e ?_
  rw [← hall, List.getElem?_append_right (by rw [List.length_map]), List.length_map, Nat.sub_self]
  rfl

theorem step (h : Ordered s) {a : Action} (hok : s.InOrder a) (hstep : s.step a = some s') :
    Ordered s' := by
  obtain ⟨entry, -, rfl⟩ | ⟨i, k, ks, rfl, hi, rfl⟩ | ⟨-, rfl⟩ := step_cases hstep
  · obtain ⟨owner, rest, hsole, hrest⟩ := h.claimed
    refine ⟨h.aligned, h.synced, owner, rest, hsole.append ?_, hrest⟩
    exact (List.append_nil _).trans (Stretch.work_of_isPlain entry.isPlain)
  · have hk : k.InOrder s := hok k (running_of_getElem? hi)
    refine ⟨Stretch.run_aligned h.aligned s.toHistory fun req hreq => ?_,
      Stretch.run_synced h.synced s.toHistory k, h.claimed_ran hi hk⟩
    subst hreq
    exact hk
  · exact h.restart

theorem of_run {id : NodeId} {threshold : Nat} {config : ClusterConfig}
    (hrun : Run Threads.step InOrder (.init id threshold config) s) : Ordered s :=
  hrun.invariant (init id threshold config) fun _ _ _ h hok hstep => h.step hok hstep

end Ordered

end Threads

variable [StateMachine σ]

/-- **Entries are applied in strict log order, each exactly once**, in every run
whose claims and installations meet `Threads.InOrder`: since the last start or
restore the `apply` calls have increasing indices, and every index between the
restored snapshot and such a call was taken up, with its command applied. -/
theorem applied_in_order {id : NodeId} {threshold : Nat} {config : ClusterConfig} {s : Threads σ}
    (hrun : Run Threads.step Threads.InOrder (.init id threshold config) s) :
    s.calls.Pairwise (fun e e' => e.index < e'.index) ∧
      (∀ e ∈ s.calls, s.base < e.index) ∧
      ∀ e ∈ s.calls, ∀ i, s.base < i → i ≤ e.index →
        ∃ o ∈ s.since, o.entry.index = i ∧ (o.entry.type = .command → o.entry ∈ s.calls) := by
  obtain ⟨_, rest, -, hindexed, -⟩ := (Threads.Ordered.of_run hrun).claimed
  have hsince := hindexed.of_isPrefix (List.prefix_append _ _)
  refine ⟨hsince.pairwise_index.filter _, fun e he => ?_, fun e he i hbase hi => ?_⟩
  · exact (hsince.getElem?_of_mem (List.mem_filter.mp he).1).1
  · obtain ⟨-, hat⟩ := hsince.getElem?_of_mem (List.mem_filter.mp he).1
    have hlt := (List.getElem?_eq_some_iff.mp hat).1
    rw [List.length_map] at hlt
    -- no index up to the last call is missing
    have hlen : i - s.base - 1 < s.since.length := by omega
    have hmem := List.getElem_mem hlen
    refine ⟨s.since[i - s.base - 1], hmem, ?_, fun hcommand => ?_⟩
    · have := hsince (i - s.base - 1) s.since[i - s.base - 1].entry
        (by rw [List.getElem?_map, List.getElem?_eq_getElem hlen]; rfl)
      omega
    · exact List.mem_filter.mpr ⟨List.mem_map_of_mem hmem, by simpa using hcommand⟩

/-! ## Two batches -/

open Threads.Action (start run)

/-- The node is elected with the vote of node 2 and puts its no-op at index 1.
Then two clients propose a command each, and each time a heartbeat goes out. -/
def proposedTwice : Threads KvStore :=
  replay Threads.step firstOfThree
    ([start .timeout, run 0,
      start (.reply 2 (.requestVote ⟨1, 1, 0, 0⟩ 2 ⟨1, true⟩))] ++ Threads.runs 1 4 ++
      [start (.propose putCommand)] ++ Threads.runs 2 2 ++
      [start .heartbeat] ++ Threads.runs 3 7 ++
      [start (.propose putCommand)] ++ Threads.runs 4 2 ++
      [start .heartbeat] ++ Threads.runs 5 7)

/-- What a heartbeat sends when the log has `m` entries. -/
def heartbeatReq (m : Nat) : AppendEntriesReq :=
  ⟨1, 1, 0, 0, proposedTwice.node.log.entries.take m, 0⟩

/-- Node 3 answers the second heartbeat, and its callback commits and applies
all three entries. -/
def appliedAll : Threads KvStore :=
  replay Threads.step proposedTwice
    ([start (.reply 3 (.appendEntries (heartbeatReq 3) ⟨1, true, 3, 0, 0⟩))] ++
      Threads.runs 6 10)

theorem applied_in_order_of_appliedAll :
    appliedAll.calls.map LogEntry.index = [2, 3] ∧
      appliedAll.calls.Pairwise (fun e e' => e.index < e'.index) := by
  have hrun : Run Threads.step Threads.InOrder firstOfThree appliedAll :=
    .trans (run_replay (by decide +kernel) : Run _ _ _ proposedTwice)
        (run_replay (by decide +kernel))
  exact ⟨by decide +kernel, (applied_in_order hrun).1⟩

/-- Node 2 answers the first heartbeat and its callback claims the entries 1
and 2; node 3 answers the second one and its callback claims the entry 3 and
applies it.  Only then the first callback goes on. -/
def overtook : Threads KvStore :=
  replay Threads.step proposedTwice
    ([start (.reply 2 (.appendEntries (heartbeatReq 2) ⟨1, true, 2, 0, 0⟩))] ++
      Threads.runs 6 3 ++
      [start (.reply 3 (.appendEntries (heartbeatReq 3) ⟨1, true, 3, 0, 0⟩))] ++
      Threads.runs 7 4 ++ Threads.runs 6 3)

/-- The command at index 3 is applied before the command at index 2. -/
theorem batches_overtake :
    Run Threads.step (fun _ _ => True) firstOfThree overtook ∧
      .call ⟨1, 2, 0, .appendEntries (heartbeatReq 2)⟩ ∈ proposedTwice.out ∧
      .call ⟨1, 3, 0, .appendEntries (heartbeatReq 3)⟩ ∈ proposedTwice.out ∧
      overtook.base = 0 ∧ overtook.calls.map LogEntry.index = [3, 2] := by
  refine ⟨.trans (run_replay (by decide +kernel) : Run _ _ _ proposedTwice)
    (run_replay (by decide +kernel)), ?_⟩
  refine ⟨by decide +kernel, by decide +kernel, by decide +kernel, by decide +kernel⟩

end KvRaft
