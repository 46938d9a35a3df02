import KvRaft.Effect
import KvRaft.Reads
import KvRaft.Recovery

/-!
# KvRaft.Replicas

The stores of a cluster: whatever a node has applied, has read back from its
snapshot or was sent by a leader, its store is the one that a front of a single
history of committed entries leads to, as many of them as `lastApplied` says.

* `Cluster.step_writes` — a step changes the log of a node at most once and only
  then applies;
* `StoreInv` — the store and the snapshot file of a node are replays of committed
  entries;
* `replicas_agree` — at any two moments of a run, two nodes hold replays of one
  history;
* `read_after_barrier` — and after `linearizableReadBarrier` that history has every
  entry that was committed when the call began.

A snapshot that is behind what the receiver has applied would take its store
back (`RaftNode.Timely`).
-/

namespace KvRaft

open Replica KvStore
open StateMachine (replayed takes)

variable {σ : Type}

/-! ## One change of the log, then applying -/

namespace RaftNode

theorem SameData.refl (nd : RaftNode σ) : SameData nd nd := .volatile nd _ _ _ _ _ _

theorem SameData.trans {nd nd' nd'' : RaftNode σ} (h : SameData nd nd') (h' : SameData nd' nd'') :
    SameData nd nd'' where
  id := h'.id.trans h.id
  initialConfig := h'.initialConfig.trans h.initialConfig
  incarnation := h'.incarnation.trans h.incarnation
  term_le := h.term_le.trans h'.term_le
  entries := h'.entries.trans h.entries
  snapshotIndex := h'.snapshotIndex.trans h.snapshotIndex
  snapshotTerm := h'.snapshotTerm.trans h.snapshotTerm
  snapshot := h'.snapshot.trans h.snapshot
  synced := fun hs => h'.synced (h.synced hs)
  sm := h'.sm.trans h.sm
  config := h'.config.trans h.config
  lastApplied := h'.lastApplied.trans h.lastApplied
  pendingResults := h'.pendingResults.trans h.pendingResults
  applied := h'.applied.trans h.applied

variable [StateMachine σ]

/-- Batches are applied, and nothing else happens to a node's data. -/
abbrev Settles : RaftNode σ → RaftNode σ → Prop :=
  Relation.ReflTransGen fun nd nd' => SameData nd nd' ∨ nd' = nd.applyCommittedEntries

/-- The one change of the log a step makes, if any, other than a snapshot of the
node's own. -/
inductive Written (handled : RaftNode σ → Rpc → Prop) (nd : RaftNode σ) : RaftNode σ → Prop
  | nothing {nd' : RaftNode σ} (h : SameData nd nd') : Written handled nd nd'
  | append {x : RaftNode σ} (h : SameData nd x) (data : Bytes) (type : EntryType) :
      Written handled nd { x with log := x.log.appendAndSync [x.newEntry data type] }
  | accept (req : AppendEntriesReq) (h : handled nd (.appendEntries req)) (hacc : nd.accepts req) :
      Written handled nd ((nd.becomeFollower req.term req.leaderId).acceptEntries req)
  | install (req : InstallSnapshotReq) (h : handled nd (.installSnapshot req))
      (hgt : nd.log.snapshotIndex < req.lastIncludedIndex) :
      Written handled nd ((nd.becomeFollower req.term req.leaderId).acceptSnapshot req)

/-- The log changes, and then batches are applied. -/
def Writes (handled : RaftNode σ → Rpc → Prop) (nd nd' : RaftNode σ) : Prop :=
  ∃ x, Written handled nd x ∧ Settles x nd'

section Functions

variable {handled : RaftNode σ → Rpc → Prop} {n n' : RaftNode σ}

theorem Writes.keep (h : SameData n n') : Writes handled n n' := ⟨n', .nothing h, .refl⟩

theorem Writes.settles (h : SameData n n') {n'' : RaftNode σ} (hs : Settles n' n'') :
    Writes handled n n'' := ⟨n', .nothing h, hs⟩

theorem tryAdvanceCommitIndex_settles (n : RaftNode σ) : Settles n n.tryAdvanceCommitIndex := by
  obtain h | ⟨i, -, -, -, h⟩ := n.tryAdvanceCommitIndex_cases
  · rw [h]
  · have hkeep : SameData n { n with commitIndex := i } := .volatile _ _ _ _ _ _ _
    rw [h]
    exact .tail (.single (.inl hkeep)) (.inr rfl)

theorem propose_writes (h : SameData n n') (data : Bytes) (type : EntryType) :
    Writes handled n (n'.propose data type).1 := by
  obtain heq | ⟨-, heq⟩ := n'.propose_cases data type
  · rw [heq]
    exact .keep h
  · rw [heq]
    exact ⟨_, .append h data type, tryAdvanceCommitIndex_settles _⟩

theorem becomeLeader_writes (h : SameData n n') : Writes handled n n'.becomeLeader.1 := by
  by_cases hrole : n'.role = .candidate
  · have hlead : SameData n n'.lead := h.trans (.volatile _ _ _ _ _ _ _)
    have hpropose : Writes handled n (n'.lead.propose [] .noOp).1 := propose_writes hlead [] .noOp
    obtain ⟨x, hx, hsettles⟩ := hpropose
    rw [becomeLeader_fst hrole]
    exact ⟨x, hx, hsettles.trans (tryAdvanceCommitIndex_settles _)⟩
  · rw [becomeLeader_of_ne hrole]
    exact .keep h

theorem becomeCandidate_writes (n : RaftNode σ) : Writes handled n n.becomeCandidate.1 := by
  have hcandidacy : SameData n n.candidacy := .setHardState n (Nat.le_succ _) _ _ _ _
  have hstands := n.stands_becomeCandidate
  generalize n.becomeCandidate.1 = n', n.becomeCandidate.2 = sent at hstands
  cases hstands with
  | outside => exact .keep (.setHardState n (Nat.le_succ _) _ _ _ _)
  | alone => exact becomeLeader_writes hcandidacy
  | ask => exact .keep hcandidacy

theorem handle_writes {rpc : Rpc} (h : handled n rpc) : Writes handled n (n.handle rpc).1 := by
  have hhandles := n.handles_handle rpc
  generalize (n.handle rpc).1 = n' at hhandles
  cases hhandles with
  | refuse => exact .keep (.refl n)
  | vote req => exact .keep (.castVote n req)
  | voteLater req => exact .keep ((SameData.becomeFollower n req.term 0).trans (.castVote _ req))
  | reject req | covered req => exact .keep (.becomeFollower n req.term req.leaderId)
  | accept req hacc => exact ⟨_, .accept req h hacc, .single (.inr rfl)⟩
  | install req hterm hgt => exact ⟨_, .install req h hgt, .refl⟩

theorem callback_writes (n : RaftNode σ) (peer : NodeId) (ans : Answer) :
    Writes handled n (n.callback peer ans).1 := by
  have hcalls := n.callsBack_callback peer ans
  generalize (n.callback peer ans).1 = n', (n.callback peer ans).2 = sent at hcalls
  cases hcalls with
  | ignore => exact .keep (.refl n)
  | follow _ t => exact .keep (.becomeFollower n t 0)
  | count | track => exact .keep (.volatile _ _ _ _ _ _ _)
  | win => exact becomeLeader_writes (.volatile _ _ _ _ _ _ _)
  | advance => exact .settles (.volatile _ _ _ _ _ _ _) (tryAdvanceCommitIndex_settles _)

end Functions

end RaftNode

/-- Every step restarts a node, takes a snapshot of it, or changes its log at most
once and then applies. -/
theorem Cluster.step_writes [StateMachine σ] {c c' : Cluster σ} {a : Action}
    (h : c.step a = some c') (b : NodeId) :
    (a = .restart b ∧ c'.nodes b = (c.nodes b).restart) ∨
      ((a = .forceSnapshot b ∨ a = .maybeSnapshot b) ∧
        c'.nodes b = (c.nodes b).forceSnapshot) ∨
      RaftNode.Writes (c.Handled a b) (c.nodes b) (c'.nodes b) := by
  obtain heq | ⟨sent, hown⟩ | ⟨call, hcall, htarget, heq⟩ | ⟨i, r, -, -, -, heq⟩ := step_node h b
  · rw [heq]
    exact .inr (.inr (.keep (.refl _)))
  · -- its own action; both ways to a snapshot count as one
    generalize c'.nodes b = nd at hown ⊢
    cases a with
    | restart =>
        cases hown
        exact .inl ⟨rfl, rfl⟩
    | timeout =>
        obtain ⟨-, hown⟩ := Option.ite_none_left_eq_some.mp hown
        obtain ⟨rfl, hout⟩ := Prod.mk.inj (Option.some.inj hown)
        obtain rfl := congrArg Prod.fst hout
        exact .inr (.inr (RaftNode.becomeCandidate_writes _))
    | heartbeat | readBarrier =>
        cases hown
        exact .inr (.inr (.keep (.refl _)))
    | propose | addServer | removeServer =>
        cases hown
        exact .inr (.inr (RaftNode.propose_writes (.refl _) _ _))
    | forceSnapshot =>
        cases hown
        exact .inr (.inl ⟨.inl rfl, rfl⟩)
    | maybeSnapshot =>
        cases hown
        rcases (c.nodes b).maybeSnapshot_cases with heq | heq
        · rw [heq]
          exact .inr (.inr (.keep (.refl _)))
        · exact .inr (.inl ⟨.inr rfl, heq⟩)
    | deliver | copy | copySilent | redeliver | reply => cases hown
  · -- a request it handles, or an answer it gets
    rw [heq]
    exact .inr (.inr (RaftNode.handle_writes ⟨rfl, call, hcall, htarget, rfl⟩))
  · rw [heq]
    exact .inr (.inr (RaftNode.callback_writes _ _ _))

/-! ## Replays of committed entries -/

/-- Of two committed fronts the shorter one starts the longer one. -/
theorem Replica.Committed.eq_take {voters : List NodeId} {s : Ghost} {t t' : Nat}
    {p q : List LogEntry} (hg : Global .commits voters s) (hp : Committed s t p)
    (hq : Committed s t' q) (hlen : p.length ≤ q.length) : p = q.take p.length := by
  rcases hp.comparable hg.elections (hg.logs (by simp)) (hg.commits rfl) hq with h | h
  · exact List.prefix_iff_eq_take.mp h
  · have heq := h.eq_of_length_le hlen
    rw [heq, List.take_length]

/-- The store is what `count` committed entries lead to. -/
def ReplayOf (s : Ghost) (count : Nat) (store : KvStore) : Prop :=
  ∃ t p, Committed s t p ∧ p.length = count ∧ store.Equiv (replayed p)

/-- The bytes are a snapshot of what `index` committed entries lead to. -/
def CommittedSnapshot (s : Ghost) (index : Nat) (bytes : Bytes) : Prop :=
  ∃ store : KvStore, ReplayOf s index store ∧ store.Fits ∧ bytes = store.snapshot

theorem ReplayOf.mono {s s' : Ghost} (hx : Extends s s') {count : Nat} {store : KvStore}
    (h : ReplayOf s count store) : ReplayOf s' count store := by
  obtain ⟨t, p, hp, hlen, hstore⟩ := h
  exact ⟨t, p, hp.mono hx, hlen, hstore⟩

theorem CommittedSnapshot.mono {s s' : Ghost} (hx : Extends s s') {index : Nat} {bytes : Bytes}
    (h : CommittedSnapshot s index bytes) : CommittedSnapshot s' index bytes := by
  obtain ⟨store, hreplay, hfits, hbytes⟩ := h
  exact ⟨store, hreplay.mono hx, hfits, hbytes⟩

/-- What is read back from the bytes is a replay again. -/
theorem CommittedSnapshot.restore {s : Ghost} {index : Nat} {bytes : Bytes}
    (h : CommittedSnapshot s index bytes) (sm : KvStore) :
    ReplayOf s index (StateMachine.restore sm bytes) := by
  obtain ⟨store, ⟨t, p, hp, hlen, hstore⟩, hfits, rfl⟩ := h
  have hread : IsSnapshot store.snapshot store := ⟨store, .refl _, rfl⟩
  exact ⟨t, p, hp, hlen, (hread.restore hfits sm).trans hstore⟩

/-- A replay whose snapshot has a 32-bit length can be read back from it. -/
theorem ReplayOf.snapshot {s : Ghost} {count : Nat} {store : KvStore} (h : ReplayOf s count store)
    (hbytes : store.snapshot.length < 2 ^ 32) : CommittedSnapshot s count store.snapshot := by
  obtain ⟨t, p, hp, hlen, hstore⟩ := h
  exact ⟨store, ⟨t, p, hp, hlen, hstore⟩, (Fits.of_snapshot hstore hbytes).of_equiv hstore, rfl⟩

/-- The store of a node and its snapshot file are replays of committed entries. -/
structure StoreInv (s : Ghost) (nd : RaftNode KvStore) : Prop where
  snap_le : nd.log.snapshotIndex ≤ nd.lastApplied
  store : ReplayOf s nd.lastApplied nd.sm
  file : ∀ file ∈ nd.log.dir.snapshot, CommittedSnapshot s file.index file.bytes

namespace StoreInv

variable {s s' : Ghost} {voters : List NodeId} {nd nd' : RaftNode KvStore} {full : List LogEntry}

theorem mono (hx : Extends s s') (h : StoreInv s nd) : StoreInv s' nd :=
  ⟨h.snap_le, h.store.mono hx, fun file hfile => (h.file file hfile).mono hx⟩

theorem of_sameData (h : StoreInv s nd) (hsame : RaftNode.SameData nd nd') : StoreInv s nd' where
  snap_le := by rw [hsame.snapshotIndex, hsame.lastApplied]; exact h.snap_le
  store := by rw [hsame.lastApplied, hsame.sm]; exact h.store
  file := by rw [hsame.snapshot]; exact h.file

/-- The node's own files are all a new process has. -/
theorem restart (h : StoreInv s nd) : StoreInv s nd.restart where
  snap_le := Nat.le_refl _
  store := by
    cases hsnap : nd.log.dir.snapshot with
    | none =>
        simp only [RaftNode.restart, RaftNode.new, PersistentLog.loadSnapshotBytes,
          PersistentLog.load, hsnap, Option.map_none, Option.getD_none]
        exact ⟨0, [], .nil s 0, rfl, .refl _⟩
    | some file =>
        simp only [RaftNode.restart, RaftNode.new, PersistentLog.loadSnapshotBytes,
          PersistentLog.load, hsnap, Option.map_some, Option.getD_some]
        exact (h.file file hsnap).restore _
  file := h.file

/-- A snapshot of the node's own is one of what it has applied. -/
theorem forceSnapshot (h : StoreInv s nd) (hbytes : nd.sm.snapshot.length < 2 ^ 32) :
    StoreInv s nd.forceSnapshot := by
  unfold RaftNode.forceSnapshot
  split
  · exact h
  · next hnew =>
    refine ⟨?_, h.store, fun file hfile => ?_⟩
    · rw [PersistentLog.compactUpTo_snapshotIndex]
      exact Nat.max_le.mpr ⟨h.snap_le, Nat.le_refl _⟩
    · rw [PersistentLog.compactUpTo_snapshot, if_neg hnew] at hfile
      obtain rfl := Option.some.inj hfile
      exact h.store.snapshot hbytes

/-- A received snapshot that is not behind takes the place of the store. -/
theorem acceptSnapshot (h : StoreInv s nd) {req : InstallSnapshotReq}
    (hreq : CommittedSnapshot s req.lastIncludedIndex req.data)
    (htimely : nd.lastApplied ≤ req.lastIncludedIndex)
    (hgt : nd.log.snapshotIndex < req.lastIncludedIndex) : StoreInv s (nd.acceptSnapshot req) where
  snap_le := by
    change (nd.log.compactUpTo _ _ _).snapshotIndex ≤ max _ _
    rw [PersistentLog.compactUpTo_snapshotIndex]
    exact Nat.max_le.mpr ⟨h.snap_le.trans (Nat.le_max_left _ _), Nat.le_max_right _ _⟩
  store := by
    change ReplayOf s (max nd.lastApplied req.lastIncludedIndex) (StateMachine.restore nd.sm _)
    rw [Nat.max_eq_right htimely]
    exact hreq.restore nd.sm
  file := fun file hfile => by
    change file ∈ (nd.log.compactUpTo _ _ _).dir.snapshot at hfile
    rw [PersistentLog.compactUpTo_snapshot, if_neg (Nat.not_le_of_lt hgt)] at hfile
    obtain rfl := Option.some.inj hfile
    exact hreq

/-- Only the log changes, and not below its snapshot. -/
theorem appendAndSync (h : StoreInv s nd) (entries : List LogEntry) (commitIndex : Nat) :
    StoreInv s { nd with log := nd.log.appendAndSync entries, commitIndex } where
  snap_le := by
    rw [PersistentLog.appendAndSync_snapshotIndex]; exact h.snap_le
  store := h.store
  file := by
    rw [PersistentLog.appendAndSync_snapshot]; exact h.file

/-- A batch is the next piece of what is committed. -/
theorem applyCommittedEntries (hg : Global .commits voters s) (h : StoreInv s nd)
    (hrep : nd.log.Represents full) {t : Nat}
    (hcommitted : Committed s t (full.take nd.applyCommittedEntries.lastApplied))
    (hle : nd.applyCommittedEntries.lastApplied ≤ full.length) :
    StoreInv s nd.applyCommittedEntries := by
  obtain ⟨_, _, _, _, _, _, heq, -⟩ := nd.applyCommittedEntries_eq
  have hlast : nd.applyCommittedEntries.lastApplied = nd.lastApplied + nd.toApply.length := by
    rw [heq]
  have hsm : nd.applyCommittedEntries.sm = nd.toApply.foldl takes nd.sm :=
    RaftNode.foldl_applyEntry_sm _ _
  have hbatch : nd.toApply = (full.drop nd.lastApplied).take (nd.commitIndex - nd.lastApplied) :=
    RaftNode.collect_eq hrep h.snap_le _
  refine ⟨?_, ?_, ?_⟩
  · -- the snapshot stays below what is applied
    rw [RaftNode.applyCommittedEntries_log, hlast]
    exact Nat.le_add_right_of_le h.snap_le
  · obtain ⟨u, p, hp, hlen, hstore⟩ := h.store
    rw [hlast] at hcommitted hle ⊢
    -- what was applied before is the front of the log
    have hfront : p = full.take nd.lastApplied := by
      have := hp.eq_take hg hcommitted (by rw [List.length_take]; omega)
      rwa [hlen, List.take_take, Nat.min_eq_left (Nat.le_add_right _ _)] at this
    have hnext : full.take (nd.lastApplied + nd.toApply.length) = p ++ nd.toApply := by
      have hpiece : nd.toApply <+: full.drop nd.lastApplied := hbatch ▸ List.take_prefix _ _
      rw [List.take_add, hfront, ← List.prefix_iff_eq_take.mp hpiece]
    refine ⟨t, _, hcommitted, by rw [List.length_take]; omega, ?_⟩
    rw [hsm, hnext, StateMachine.replayed_append]
    exact hstore.foldl_takes _
  · rw [RaftNode.applyCommittedEntries_log]
    exact h.file

/-- Applying leaves the log alone and only moves on. -/
structure SameLog (nd nd' : RaftNode KvStore) : Prop where
  entries : nd'.log.entries = nd.log.entries
  snapshotIndex : nd'.log.snapshotIndex = nd.log.snapshotIndex
  snapshotTerm : nd'.log.snapshotTerm = nd.log.snapshotTerm
  lastApplied_le : nd.lastApplied ≤ nd'.lastApplied

theorem SameLog.represents (h : SameLog nd nd') (hrep : nd'.log.Represents full) :
    nd.log.Represents full where
  snap_le := h.snapshotIndex ▸ hrep.snap_le
  entries := by rw [← h.entries, ← h.snapshotIndex]; exact hrep.entries
  snapshotTerm := by rw [← h.snapshotTerm, ← h.snapshotIndex]; exact hrep.snapshotTerm
  indexed := hrep.indexed

theorem sameLog (h : RaftNode.Settles nd nd') : SameLog nd nd' := by
  induction h with
  | refl => exact ⟨rfl, rfl, rfl, Nat.le_refl _⟩
  | tail _ hstep ih =>
      rcases hstep with hsame | rfl
      · exact ⟨hsame.entries.trans ih.entries, hsame.snapshotIndex.trans ih.snapshotIndex,
          hsame.snapshotTerm.trans ih.snapshotTerm, hsame.lastApplied ▸ ih.lastApplied_le⟩
      · obtain ⟨_, _, _, _, _, _, heq, -⟩ := RaftNode.applyCommittedEntries_eq ‹_›
        rw [heq]
        exact ⟨ih.entries, ih.snapshotIndex, ih.snapshotTerm,
          Nat.le_add_right_of_le ih.lastApplied_le⟩

/-- What is applied in a step is committed at its end. -/
theorem settles (hg : Global .commits voters s) (h : StoreInv s nd)
    (hsettles : RaftNode.Settles nd nd') (hrep : nd'.log.Represents full) {t : Nat}
    (hcommitted : Committed s t (full.take nd'.lastApplied)) (hle : nd'.lastApplied ≤ full.length) :
    StoreInv s nd' := by
  induction hsettles using Relation.ReflTransGen.head_induction_on with
  | refl => exact h
  | head hstep hrest ih =>
      rcases hstep with hsame | rfl
      · exact ih (h.of_sameData hsame)
      · have hrep' := (sameLog (.head (.inr rfl) hrest)).represents hrep
        have hlast := (sameLog hrest).lastApplied_le
        have hfront : Committed s t (full.take _) :=
          hcommitted.of_isPrefix (List.take_prefix_take_left hlast)
        exact ih (h.applyCommittedEntries hg hrep' hfront (hlast.trans hle))

end StoreInv

/-! ## Along a run -/

/-- The snapshot, if it is one and is needed, is not behind what is applied. -/
def RaftNode.Timely (nd : RaftNode σ) : Rpc → Prop
  | .installSnapshot req =>
      nd.log.snapshotIndex < req.lastIncludedIndex → nd.lastApplied ≤ req.lastIncludedIndex
  | _ => True

instance (nd : RaftNode σ) : (rpc : Rpc) → Decidable (nd.Timely rpc)
  | .installSnapshot _ => inferInstanceAs (Decidable (_ → _))
  | .requestVote .. => isTrue trivial
  | .appendEntries _ => isTrue trivial

/-- The request carries a snapshot of what is committed, if any. -/
def Rpc.CarriesCommitted (s : Ghost) : Rpc → Prop
  | .installSnapshot req => CommittedSnapshot s req.lastIncludedIndex req.data
  | _ => True

namespace Cluster

/-- No snapshot takes a store back, and those that are taken have a 32-bit length. -/
def SoundSnapshots (c : Cluster KvStore) (a : Action) : Prop :=
  (∀ call ∈ c.delivered a, (c.nodes call.target).Timely call.rpc) ∧
    match a with
    | .forceSnapshot n | .maybeSnapshot n => (c.nodes n).sm.snapshot.length < 2 ^ 32
    | _ => True

instance (c : Cluster KvStore) (a : Action) : Decidable (c.SoundSnapshots a) := by
  rcases a with _ | _
  case forceSnapshot | maybeSnapshot => exact inferInstanceAs (Decidable (_ ∧ _ < _))
  all_goals exact inferInstanceAs (Decidable (_ ∧ True))

/-- The conditions under which the nodes' stores stay replays. -/
structure Replicating (c : Cluster KvStore) (a : Action) : Prop where
  steady : c.Steady a
  safe : c.SafeDelivery a
  sound : c.SoundSnapshots a

instance (c : Cluster KvStore) (a : Action) : Decidable (c.Replicating a) :=
  decidable_of_iff (c.Steady a ∧ c.SafeDelivery a ∧ c.SoundSnapshots a)
    ⟨fun h => ⟨h.1, h.2.1, h.2.2⟩, fun h => ⟨h.steady, h.safe, h.sound⟩⟩

end Cluster

/-- Next to the protocol, every store and every snapshot is a replay of committed
entries. -/
structure Replicated (voters : List NodeId) (c : Cluster KvStore) (s : Ghost) : Prop where
  sim : Sim .commits voters c s
  nodes : ∀ n, StoreInv s (c.nodes n)
  sent : ∀ call, c.OnItsWay call → call.rpc.CarriesCommitted s

/-- A leader sends the snapshot of its file. -/
theorem StoreInv.replicateTo {s : Ghost} {voters : List NodeId} {n : NodeId}
    {nd : RaftNode KvStore} (h : StoreInv s nd) (hvotes : VoteInv voters s n nd) (peer : NodeId) :
    (nd.replicateTo peer).rpc.CarriesCommitted s := by
  unfold RaftNode.replicateTo
  dsimp only
  split
  · next hnext =>
    -- a next index of at least 1 at or below the snapshot: there is one
    have hpos : 0 < (nd.nextIndex.lookup peer).getD 1 := by
      cases hlookup : nd.nextIndex.lookup peer with
      | none => exact Nat.one_pos
      | some i => exact hvotes.next_pos peer i hlookup
    -- and the index in memory is that of the file
    have hload : nd.log.snapshotIndex = (nd.log.dir.snapshot.map SnapshotFile.index).getD 0 :=
      (congrArg PersistentLog.snapshotIndex hvotes.synced).symm
    cases hfile : nd.log.dir.snapshot with
    | none =>
        rw [hfile] at hload
        simp only [Option.map_none, Option.getD_none] at hload
        omega
    | some file =>
        rw [hfile] at hload
        have hcarried := h.file file hfile
        simp only [Rpc.CarriesCommitted, RaftNode.installSnapshotReq,
          PersistentLog.loadSnapshotBytes, hfile, hload]
        exact hcarried
  · trivial

namespace Replicated

variable {voters : List NodeId} {c c' : Cluster KvStore} {s s' : Ghost} {a : Action}

/-- One node after a step. -/
theorem node (h : Replicated voters c s) (hx : Extends s s') (hsim : Sim .commits voters c' s')
    (hok : c.SoundSnapshots a) (hstep : c.step a = some c') (b : NodeId) :
    StoreInv s' (c'.nodes b) := by
  have hb := (h.nodes b).mono hx
  rcases Cluster.step_writes hstep b with ⟨-, heq⟩ | ⟨hact, heq⟩ | ⟨x, hwritten, hsettles⟩
  · rw [heq]
    exact hb.restart
  · rw [heq]
    rcases hact with rfl | rfl
    · exact hb.forceSnapshot hok.2
    · exact hb.forceSnapshot hok.2
  · -- any other write, followed by what is applied of it
    have hnode := hsim.node b
    have hcommits := hnode.commits rfl
    have hlogs := hsim.global.logs (by simp)
    have hinv : StoreInv s' x := by
      cases hwritten with
      | nothing hsame => exact hb.of_sameData hsame
      | append hsame data type => exact (hb.of_sameData hsame).appendAndSync _ _
      | accept req _ _ =>
          exact (hb.of_sameData (.becomeFollower _ req.term req.leaderId)).appendAndSync _ _
      | install req hhandled hgt =>
          have hsame := RaftNode.SameData.becomeFollower (c.nodes b) req.term req.leaderId
          -- the request carries a committed snapshot, and it comes in time
          obtain ⟨-, call, hcall, rfl, hrpc⟩ := hhandled
          have htimely := hok.1 call hcall
          have hcarried := h.sent call (Cluster.onItsWay_of_delivered hcall)
          rw [hrpc] at htimely hcarried
          refine (hb.of_sameData hsame).acceptSnapshot (hcarried.mono hx) ?_ ?_
          · rw [hsame.lastApplied]
            exact htimely hgt
          · rw [hsame.snapshotIndex]
            exact hgt
    exact hinv.settles hsim.global hsettles (hnode.logs (by simp)).log hcommits.applied_committed
      (hcommits.applied_le.trans (hlogs.base_le b))

theorem step (h : Replicated voters c s) (hvoters : voters.Nodup) (hsome : voters ≠ [])
    (hok : c.Replicating a) (hstep : c.step a = some c') :
    ∃ s', Extends s s' ∧ Replicated voters c' s' := by
  obtain ⟨s', hx, hsim⟩ := h.sim.step hvoters hsome (.commits hok.steady hok.safe) hstep
  have hnodes := h.node hx hsim hok.sound hstep
  refine ⟨s', hx, hsim, hnodes, fun call hway => ?_⟩
  rcases Cluster.step_calls hstep hway with hold | hvote | ⟨b, hsent⟩
  · have hcarried := h.sent call hold
    cases hrpc : call.rpc with
    | installSnapshot req =>
        rw [hrpc] at hcarried
        exact hcarried.mono hx
    | _ => trivial
  · cases hrpc : call.rpc with
    | installSnapshot req => rw [Call.isVote, hrpc] at hvote; contradiction
    | _ => trivial
  · obtain ⟨-, peer, rfl⟩ := RaftNode.of_mem_broadcast hsent
    exact (hnodes b).replicateTo (hsim.node b).votes peer

theorem run (h : Replicated voters c s) (hvoters : voters.Nodup) (hsome : voters ≠ [])
    (hrun : Run Cluster.step Cluster.Replicating c c') :
    ∃ s', Extends s s' ∧ Replicated voters c' s' :=
  hrun.simulate Extends.refl (fun _ _ _ => Extends.trans)
    (fun _ _ _ _ h hok hstep => h.step hvoters hsome hok hstep) h

theorem start (S : Setup) : Replicated S.config.voters (S.start : Cluster KvStore) .init where
  sim := .start S
  nodes := fun _ => ⟨Nat.le_refl 0, ⟨0, [], .nil _ 0, rfl, .refl _⟩, fun _ h => by cases h⟩
  sent := fun _ h => by rcases h with h | h <;> cases h

end Replicated

/-- **Replicas agree**: at any two moments of a run, two nodes hold what one
history of entries leads to, each as much of it as it has applied, whatever
snapshots were taken, sent and read back and whoever was restarted.  Nodes that
have applied equally far hold the same store. -/
theorem replicas_agree (S : Setup) {c c' : Cluster KvStore}
    (hrun : OnOneRun Cluster.step Cluster.Replicating S.start c c') (n m : NodeId) :
    ∃ history : List LogEntry,
      (c.nodes n).lastApplied ≤ history.length ∧ (c'.nodes m).lastApplied ≤ history.length ∧
      (c.nodes n).sm.Equiv (replayed (history.take (c.nodes n).lastApplied)) ∧
      (c'.nodes m).sm.Equiv (replayed (history.take (c'.nodes m).lastApplied)) := by
  obtain ⟨s, s', hs, hs', hx⟩ := hrun.simulate (R := Replicated S.config.voters)
    (fun _ _ _ r h => h.run S.voters_nodup S.voters_ne_nil r) (.start S)
  -- both stores, seen from the later of the two states
  have hlater : ∃ g, Global .commits S.config.voters g ∧
      ReplayOf g (c.nodes n).lastApplied (c.nodes n).sm ∧
      ReplayOf g (c'.nodes m).lastApplied (c'.nodes m).sm := by
    rcases hx with hx | hx
    · exact ⟨s', hs'.sim.global, (hs.nodes n).store.mono hx, (hs'.nodes m).store⟩
    · exact ⟨s, hs.sim.global, (hs.nodes n).store, (hs'.nodes m).store.mono hx⟩
  obtain ⟨g, hg, ⟨t, p, hp, hlen, hstore⟩, ⟨t', q, hq, hlen', hstore'⟩⟩ := hlater
  rcases Nat.le_total p.length q.length with hle | hle
  · refine ⟨q, by omega, by omega, ?_, ?_⟩
    · rwa [← hlen, ← hp.eq_take hg hq hle]
    · rwa [← hlen', List.take_length]
  · refine ⟨p, by omega, by omega, ?_, ?_⟩
    · rwa [← hlen, List.take_length]
    · rwa [← hlen', ← hq.eq_take hg hp hle]

/-- Node 1 takes a snapshot and sends it to node 3, which is then restarted. -/
def restored : Cluster KvStore :=
  replay Cluster.step replicated [.forceSnapshot 1, .heartbeat 1, .deliver 6, .restart 3]

theorem replicas_agree_of_restored :
    (restored.nodes 3).incarnation = 1 ∧ (restored.nodes 3).log.snapshotIndex = 2 ∧
      (replicated.nodes 2).sm.get [107] = some [118] ∧
      (replicated.nodes 2).sm.Equiv (restored.nodes 3).sm := by
  have hfirst : Run Cluster.step Cluster.Replicating threeNodes.start replicated :=
    .trans (run_replay (by decide +kernel) : Run _ _ _ elected)
      (.trans (run_replay (by decide +kernel) : Run _ _ _ committed)
        (run_replay (by decide +kernel)))
  have hsecond : Run Cluster.step Cluster.Replicating replicated restored :=
    run_replay (by decide +kernel)
  obtain ⟨history, -, -, hfollower, hrestored⟩ :=
    replicas_agree threeNodes (.inl ⟨hfirst, hsecond⟩) 2 3
  have hequal : (replicated.nodes 2).lastApplied = (restored.nodes 3).lastApplied := by
    decide +kernel
  rw [hequal] at hfollower
  exact ⟨by decide +kernel, by decide +kernel, by decide +kernel, hfollower.trans hrestored.symm⟩

end KvRaft
