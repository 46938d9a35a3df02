import KvRaft.Crash
import KvRaft.Frame

/-!
# KvRaft.Recovery

A cluster of one voter over many lives of its process: proposals, snapshots and
restarts in any order, each restart on the bytes the last process left in its
files and followed by the election the node wins alone.

* `Single` — the node and the commands its `propose` has accepted;
* `Single.Alone` — the node's log stands for a full log, `snapshot.bin` holds the
  store of a front of it and the state machine that of the applied front;
* `recovered_store` — after every step the store is the one the accepted
  commands make of an empty store.
-/

namespace KvRaft

open KvStore
open StateMachine (replayed takes)
open PersistentLog (IndexedFrom)

/-! ## A cluster of one -/

/-- The only node of a cluster and the commands its `propose` has accepted. -/
structure Single where
  node : RaftNode KvStore
  accepted : List KvCommand

namespace Single

inductive Action
  | propose (cmd : KvCommand)
  | forceSnapshot
  | maybeSnapshot
  | restart

/-- A new process with a new store, on the files of the old one. -/
def reopen (n : RaftNode KvStore) : RaftNode KvStore :=
  .new n.id n.snapshotThresholdEntries n.initialConfig n.log.dir.files.directory
    (n.incarnation + 1) n.applied

/-- The first process, on an empty directory and after its election. -/
def init (id : NodeId) (threshold : Nat) (addresses : List (NodeId × Bytes)) : Single where
  node := (RaftNode.new id threshold ⟨[id], addresses⟩ .empty 0 []).becomeCandidate.1
  accepted := []

def step (s : Single) : Action → Option Single
  | .propose cmd =>
      let (node, proposed) := s.node.propose cmd.encode .command
      some ⟨node, if proposed.isLeader then s.accepted ++ [cmd] else s.accepted⟩
  | .forceSnapshot => some { s with node := s.node.forceSnapshot }
  | .maybeSnapshot => some { s with node := s.node.maybeSnapshot }
  | .restart => some { s with node := (reopen s.node).becomeCandidate.1 }

/-- Byte strings have a 32-bit length, and the next index and term are still
64-bit numbers. -/
def Fits (s : Single) (a : Action) : Prop :=
  (s.node.log.lastIndex + 1 < 2 ^ 64 ∧ s.node.log.currentTerm + 1 < 2 ^ 64) ∧
    match a with
    | .propose cmd => cmd.InRange ∧ cmd.encode.length < 2 ^ 32
    | .forceSnapshot | .maybeSnapshot => s.node.sm.snapshot.length < 2 ^ 32
    | .restart => True

end Single

instance (c : KvCommand) : Decidable c.InRange :=
  decidable_of_iff (c.key.length < 2 ^ 32 ∧ c.value.length < 2 ^ 32 ∧ c.expect.length < 2 ^ 32 ∧
      c.clientId < 2 ^ 64 ∧ c.requestSeq < 2 ^ 64)
    ⟨fun ⟨hk, hv, he, hc, hr⟩ => ⟨hk, hv, he, hc, hr⟩,
      fun h => ⟨h.key, h.value, h.expect, h.clientId, h.requestSeq⟩⟩

instance (s : Single) (a : Single.Action) : Decidable (s.Fits a) := by
  unfold Single.Fits
  cases a <;> infer_instance

/-! ## Stores that fit a snapshot -/

namespace KvStore

theorem length_le_flatMap {α : Type} {l : List α} {f : α → Bytes} (h : ∀ x ∈ l, f x ≠ []) :
    l.length ≤ (l.flatMap f).length := by
  induction l with
  | nil => exact Nat.le_refl 0
  | cons x l ih =>
      have hpos := List.length_pos_of_ne_nil (h x List.mem_cons_self)
      have hrest := ih fun y hy => h y (List.mem_cons_of_mem x hy)
      rw [List.flatMap_cons, List.length_append, List.length_cons]
      omega

/-- A snapshot has room for more entries than the store has. -/
theorem length_le_snapshot (s : KvStore) :
    s.data.entries.length ≤ s.snapshot.length ∧ s.lastSeq.entries.length ≤ s.snapshot.length := by
  have hdata := length_le_flatMap (l := s.data.entries)
    (f := fun p => putBytes p.1 ++ putBytes p.2) fun p _ => by simp [putBytes, putU32, putLE]
  have hseq := length_le_flatMap (l := s.lastSeq.entries)
    (f := fun p => putU64 p.1 ++ (putU64 p.2.1 ++ putBytes p.2.2)) fun p _ => by
      simp [putU64, putLE]
  simp only [snapshot, List.length_append] at hdata hseq ⊢
  omega

/-- The store a log leads to fits if its snapshot has a 32-bit length. -/
theorem Fits.of_snapshot {s : KvStore} {log : List LogEntry}
    (h : s.Equiv (StateMachine.replayed log))
    (hbytes : s.snapshot.length < 2 ^ 32) : (StateMachine.replayed log : KvStore).Fits := by
  obtain ⟨hdata, hseq⟩ := s.length_le_snapshot
  refine ⟨(replayed_inRange log).1, ?_, ?_⟩
  · rw [← h.data.length_eq]; omega
  · rw [← h.lastSeq.length_eq]; omega

theorem Equiv.foldl_takes {s t : KvStore} (h : s.Equiv t) (batch : List LogEntry) :
    (batch.foldl StateMachine.takes s).Equiv (batch.foldl StateMachine.takes t) := by
  induction batch generalizing s t with
  | nil => exact h
  | cons e batch ih => exact ih (h.takes e)

end KvStore

/-- The terms of a valid log are 64-bit numbers. -/
theorem PersistentLog.Valid.termAt_lt {L : PersistentLog} (h : L.Valid) (i : Nat) :
    L.termAt i < 2 ^ 64 := by
  unfold PersistentLog.termAt
  split
  · exact h.fits.snapshotTerm
  · split
    · exact Nat.two_pow_pos 64
    · split
      · next e he => exact (h.fits.entries e (List.mem_of_getElem? he)).term
      · exact Nat.two_pow_pos 64

/-! ## The node of a cluster of one -/

namespace Single

/-- The file holds the store of a front of the log. -/
def Covers (full : List LogEntry) (file : SnapshotFile) : Prop :=
  (replayed (full.take file.index) : KvStore).Fits ∧
    IsSnapshot file.bytes (replayed (full.take file.index))

/-- The node is the only voter, its log stands for `full`, and its state machine
is the store of the entries up to `lastApplied`, which is its commit index. -/
structure Alone (id : NodeId) (full : List LogEntry) (n : RaftNode KvStore) : Prop where
  self : n.id = id
  initial : n.initialConfig.voters = [id]
  voters : n.config.voters = [id]
  tracked : ∀ p ∈ n.matchIndex.entries, p.1 = id
  valid : n.log.Valid
  represents : n.log.Represents full
  plain : ∀ e ∈ full, e.type ≠ .config
  file : ∀ file ∈ n.log.dir.snapshot, Covers full file
  snap_le : n.log.snapshotIndex ≤ n.lastApplied
  commitIndex : n.commitIndex = n.lastApplied
  applied_le : n.lastApplied ≤ full.length
  sm : n.sm.Equiv (replayed (full.take n.lastApplied))

namespace Alone

variable {id : NodeId} {full : List LogEntry} {n : RaftNode KvStore}

/-- The constructor on the directory of a valid log. -/
theorem of_new {threshold : Nat} {config : ClusterConfig} {d : Directory} {incarnation : Nat}
    {applied : List (Applied KvStore)} (hconfig : config.voters = [id])
    (hvalid : (PersistentLog.load d).Valid) (hfull : (PersistentLog.load d).Represents full)
    (hplain : ∀ e ∈ full, e.type ≠ .config) (hfile : ∀ file ∈ d.snapshot, Covers full file) :
    Alone id full (.new id threshold config d incarnation applied) where
  self := rfl
  initial := hconfig
  voters := hconfig
  tracked := nofun
  valid := hvalid
  represents := hfull
  plain := hplain
  file := hfile
  snap_le := Nat.le_refl _
  commitIndex := rfl
  applied_le := hfull.snap_le
  sm := by
    cases hsnap : d.snapshot with
    | none =>
        simp only [RaftNode.new, PersistentLog.loadSnapshotBytes, PersistentLog.load, hsnap,
          Option.map_none, Option.getD_none, List.take_zero]
        exact .refl _
    | some file =>
        -- the file decodes to what was applied when it was written
        obtain ⟨hfits, hbytes⟩ := hfile file hsnap
        simp only [RaftNode.new, PersistentLog.loadSnapshotBytes, PersistentLog.load, hsnap,
          Option.map_some, Option.getD_some]
        exact hbytes.restore hfits _

/-- A new process reads the log of the old one. -/
theorem reopen (h : Alone id full n) : Alone id full (Single.reopen n) := by
  have hdir := directory_files (h.valid.synced.dir_fits h.valid.fits)
  have hload : PersistentLog.load n.log.dir = n.log := h.valid.synced
  rw [Single.reopen, hdir, h.self]
  refine of_new h.initial ?_ ?_ h.plain h.file
  · rw [hload]; exact h.valid
  · rw [hload]; exact h.represents

/-- Where there are no peers the leader's own last index is the candidate. -/
theorem commitCandidate (h : Alone id full n) :
    n.sortedMatches[n.config.voters.length / 2]? = some full.length := by
  have hnone : n.matchIndex.entries.filter (·.1 ≠ n.id) = [] :=
    List.filter_eq_nil_iff.mpr fun p hp => by simp [h.tracked p hp, h.self]
  rw [RaftNode.sortedMatches, hnone, h.represents.lastIndex, h.voters]
  simp

/-- Committing the whole log applies what is left of it. -/
theorem applyCommittedEntries (h : Alone id full n) :
    Alone id full (RaftNode.applyCommittedEntries { n with commitIndex := full.length }) ∧
      (RaftNode.applyCommittedEntries { n with commitIndex := full.length }).lastApplied =
        full.length := by
  -- everything above what is applied is in the batch
  have hbatch : RaftNode.toApply { n with commitIndex := full.length } =
      full.drop n.lastApplied := by
    rw [RaftNode.toApply, RaftNode.collect_eq h.represents h.snap_le]
    exact List.take_of_length_le (by rw [List.length_drop])
  have hclaim : RaftNode.claim { n with commitIndex := full.length } =
      { n with commitIndex := full.length, lastApplied := full.length } := by
    have happlied := h.applied_le
    rw [RaftNode.claim, hbatch, List.length_drop]
    congr 1
    change n.lastApplied + _ = _
    omega
  obtain ⟨sm, pendingResults, records, -, heq⟩ := RaftNode.foldl_applyEntry_plain
    (fun e he => h.plain e (List.mem_of_mem_drop he))
    ({ n with commitIndex := full.length, lastApplied := full.length } : RaftNode KvStore)
  have hsm : sm = (full.drop n.lastApplied).foldl takes n.sm :=
    (congrArg RaftNode.sm heq).symm.trans (RaftNode.foldl_applyEntry_sm _ _)
  -- replaying the rest on top of the state gives the whole replay
  have hreplayed : replayed full =
      (full.drop n.lastApplied).foldl takes (replayed (full.take n.lastApplied) : KvStore) := by
    rw [← StateMachine.replayed_append, List.take_append_drop]
  rw [RaftNode.applyCommittedEntries, hbatch, hclaim, heq]
  refine ⟨{ h with
    snap_le := h.represents.snap_le
    commitIndex := rfl
    applied_le := Nat.le_refl _
    sm := ?_ }, rfl⟩
  change sm.Equiv (replayed (full.take full.length))
  rw [hsm, List.take_length, hreplayed]
  exact h.sm.foldl_takes _

/-- A leader whose last entry is of its term has everything applied. -/
theorem tryAdvanceCommitIndex (h : Alone id full n) (hrole : n.role = .leader)
    (hterm : Replica.lastTerm full = n.log.currentTerm) :
    Alone id full n.tryAdvanceCommitIndex ∧
      n.tryAdvanceCommitIndex.lastApplied = full.length := by
  have hcandidate : n.log.termAt full.length = n.log.currentTerm := by
    rw [h.represents.termAt h.represents.snap_le]
    exact hterm
  unfold RaftNode.tryAdvanceCommitIndex
  rw [if_neg (by simp [hrole]), h.commitCandidate]
  simp only [hcandidate, and_true]
  split
  · exact h.applyCommittedEntries
  · have happlied := h.applied_le
    have hcommit := h.commitIndex
    exact ⟨h, by omega⟩

/-- A proposal of the leader is applied at once. -/
theorem propose (h : Alone id full n) (hrole : n.role = .leader) {bytes : Bytes} {type : EntryType}
    (htype : type ≠ .config) (hbytes : bytes.length < 2 ^ 32)
    (hindex : n.log.lastIndex + 1 < 2 ^ 64) :
    Alone id (full ++ [n.newEntry bytes type]) (n.propose bytes type).1 ∧
      (n.propose bytes type).1.lastApplied = full.length + 1 := by
  set e := n.newEntry bytes type
  have hlast : n.log.lastIndex = full.length := h.represents.lastIndex
  have hindexed : IndexedFrom n.log.lastIndex [e] := .singleton rfl
  have hop : LogOp.Valid n.log (.appendAndSync [e]) :=
    ⟨List.forall_mem_singleton.mpr ⟨h.valid.fits.currentTerm, hindex, hbytes⟩,
      fun _ => ⟨_, hlast ▸ h.represents.snap_le, Nat.le_refl _, hindexed⟩⟩
  have hrep := h.represents.appendAndSync h.represents.snap_le (Nat.le_refl _)
    (List.cons_ne_nil e []) (hlast ▸ hindexed)
  rw [List.take_length] at hrep
  have hfront : ∀ {i}, i ≤ full.length → (full ++ [e]).take i = full.take i :=
    fun hi => List.take_append_of_le_length hi
  have happended : Alone id (full ++ [e]) { n with log := n.log.appendAndSync [e] } :=
    { h with
      valid := hop.run h.valid
      represents := hrep
      plain := fun x hx => (List.mem_append.mp hx).elim (h.plain x) fun hx => by
        rw [List.mem_singleton.mp hx]; exact htype
      -- the file is older than the new entry
      file := fun file hfile => by
        rw [PersistentLog.appendAndSync_snapshot] at hfile
        have hsnap : n.log.snapshotIndex = file.index := by
          have := congrArg PersistentLog.snapshotIndex h.valid.synced
          rw [← this, PersistentLog.load, Option.mem_def.mp hfile]
          rfl
        rw [Covers, hfront (hsnap ▸ h.represents.snap_le)]
        exact h.file file hfile
      snap_le := by
        rw [PersistentLog.appendAndSync_snapshotIndex]; exact h.snap_le
      applied_le := by
        rw [List.length_append]; exact Nat.le_add_right_of_le h.applied_le
      sm := by
        rw [hfront h.applied_le]; exact h.sm }
  have hterm : Replica.lastTerm (full ++ [e]) = n.log.currentTerm :=
    Replica.lastTerm_append_singleton full e
  -- the only voter commits its entry at once
  obtain ⟨halone, happlied⟩ := happended.tryAdvanceCommitIndex hrole (by simpa using hterm)
  rw [RaftNode.propose_fst hrole]
  exact ⟨halone, by rw [happlied, List.length_append]; rfl⟩

/-- The node wins an election it holds alone, and its no-op is applied. -/
theorem becomeCandidate (h : Alone id full n) (hid : id < 2 ^ 32)
    (hindex : n.log.lastIndex + 1 < 2 ^ 64) (hterm : n.log.currentTerm + 1 < 2 ^ 64) :
    ∃ e : LogEntry, e.type = .noOp ∧ Alone id (full ++ [e]) n.becomeCandidate.1 ∧
      n.becomeCandidate.1.role = .leader ∧
      n.becomeCandidate.1.lastApplied = (full ++ [e]).length := by
  have hvoter : n.config.hasVoter n.id = true := by simp [h.voters, h.self]
  have hop : LogOp.Valid n.log (.setHardState (n.log.currentTerm + 1) n.id) := ⟨hterm, h.self ▸ hid⟩
  -- the node with its own vote, in its new office
  set candidate : RaftNode KvStore :=
    { n.stand with votes := Function.update n.votes (n.log.currentTerm + 1) 1 }
  have hled : Alone id full candidate.lead :=
    { h with
      tracked := fun p hp => by
        change p ∈ ((n.config.voters.foldl (fun m v => m.insert v 0) ∅ :
          AList fun _ : NodeId => Nat)).entries at hp
        rw [h.voters] at hp
        exact (mem_insert hp).elim (fun heq => by rw [heq]) nofun
      valid := hop.run h.valid
      represents := h.represents.setHardState _ _ }
  obtain ⟨halone, -⟩ : Alone id (full ++ [candidate.lead.newEntry [] .noOp])
      (candidate.lead.propose [] .noOp).1 ∧ _ := hled.propose rfl nofun (by norm_num) hindex
  refine ⟨candidate.lead.newEntry [] .noOp, rfl, ?_⟩
  -- standing, winning and the first proposal are one call
  have hcandidate : n.becomeCandidate.1 =
      (candidate.lead.propose [] .noOp).1.tryAdvanceCommitIndex := by
    have hmajority : 1 ≥ candidate.majority := by
      simp [RaftNode.majority, show candidate.config = n.config from rfl, h.voters]
    have helected : n.becomeCandidate = candidate.becomeLeader := by
      unfold RaftNode.becomeCandidate
      rw [if_neg (by simp [RaftNode.stand, hvoter])]
      exact if_pos hmajority
    rw [helected, RaftNode.becomeLeader, if_neg (by simp [candidate, RaftNode.stand])]
  have hadvance := halone.tryAdvanceCommitIndex (RaftNode.propose_role _ _ _) (by
    rw [RaftNode.propose_log rfl, PersistentLog.appendAndSync_currentTerm,
      Replica.lastTerm_append_singleton]
    rfl)
  rw [hcandidate]
  exact ⟨hadvance.1, by rw [RaftNode.tryAdvanceCommitIndex_role, RaftNode.propose_role]; rfl,
    hadvance.2⟩

/-- A snapshot holds the store of what it replaces. -/
theorem forceSnapshot (h : Alone id full n) (hbytes : n.sm.snapshot.length < 2 ^ 32)
    (hindex : n.log.lastIndex + 1 < 2 ^ 64) : Alone id full n.forceSnapshot := by
  have hlast := h.represents.lastIndex
  have happlied := h.applied_le
  unfold RaftNode.forceSnapshot
  split
  · exact h
  · next hnew =>
    have htake : (full.take n.lastApplied).length = n.lastApplied := by
      rw [List.length_take]; omega
    have hterm : n.log.termAt n.lastApplied = Replica.lastTerm (full.take n.lastApplied) := by
      rw [h.represents.termAt h.snap_le, Replica.lastTerm, htake,
        Replica.termAt_take (Nat.le_refl _) h.applied_le]
    have hrep := h.represents.compactUpTo (p := full.take n.lastApplied) (by omega)
      (h.represents.indexed.take _) n.sm.snapshot
    rw [htake, List.take_append_drop, ← hterm] at hrep
    -- the compaction fits the widths of its file
    have hop : LogOp.Valid n.log
        (.compactUpTo n.lastApplied (n.log.termAt n.lastApplied) n.sm.snapshot) :=
      ⟨by omega, h.valid.termAt_lt _⟩
    refine { h with valid := hop.run h.valid, represents := hrep, file := ?_, snap_le := ?_ }
    · -- the new file is the snapshot of the state that was applied
      intro file hfile
      rw [PersistentLog.compactUpTo_snapshot, if_neg hnew] at hfile
      obtain rfl := Option.some.inj hfile
      exact ⟨.of_snapshot h.sm hbytes, n.sm, h.sm, rfl⟩
    · rw [PersistentLog.compactUpTo_snapshotIndex]
      exact Nat.max_le.mpr ⟨h.snap_le, Nat.le_refl _⟩

theorem maybeSnapshot (h : Alone id full n) (hbytes : n.sm.snapshot.length < 2 ^ 32)
    (hindex : n.log.lastIndex + 1 < 2 ^ 64) : Alone id full n.maybeSnapshot := by
  unfold RaftNode.maybeSnapshot
  split
  · exact h.forceSnapshot hbytes hindex
  · exact h

end Alone

/-! ## Along a run -/

/-- The node leads, everything in its log is applied, and the commands in its
log are the accepted ones. -/
def Led (id : NodeId) (s : Single) : Prop :=
  ∃ full, Alone id full s.node ∧ s.node.role = .leader ∧ s.node.lastApplied = full.length ∧
    replayed full = ofCommands s.accepted

/-- An election after the start or a restart. -/
theorem Led.of_becomeCandidate {id : NodeId} {full : List LogEntry} {n : RaftNode KvStore}
    {accepted : List KvCommand} (h : Alone id full n) (hid : id < 2 ^ 32)
    (hindex : n.log.lastIndex + 1 < 2 ^ 64) (hterm : n.log.currentTerm + 1 < 2 ^ 64)
    (haccepted : replayed full = ofCommands accepted) : Led id ⟨n.becomeCandidate.1, accepted⟩ := by
  obtain ⟨e, htype, halone, hrole, hlast⟩ := h.becomeCandidate hid hindex hterm
  refine ⟨full ++ [e], halone, hrole, hlast, ?_⟩
  rw [StateMachine.replayed_append, ← haccepted]
  simp only [List.foldl_cons, List.foldl_nil, takes, htype]

theorem Led.init {id : NodeId} (hid : id < 2 ^ 32) (threshold : Nat)
    (addresses : List (NodeId × Bytes)) : Led id (.init id threshold addresses) := by
  have hvalid : (PersistentLog.load .empty).Valid :=
    ⟨.nil 0, rfl, ⟨Nat.two_pow_pos 64, Nat.two_pow_pos 32, Nat.two_pow_pos 64, Nat.two_pow_pos 64,
      nofun⟩⟩
  have hempty : Alone id [] (.new id threshold ⟨[id], addresses⟩ .empty 0 []) :=
    .of_new rfl hvalid ⟨Nat.le_refl 0, rfl, rfl, .nil 0⟩ nofun nofun
  have hone : 0 + 1 < 2 ^ 64 := by norm_num
  exact .of_becomeCandidate hempty hid hone hone rfl

theorem Led.step {id : NodeId} {s s' : Single} {a : Action} (hid : id < 2 ^ 32) (h : Led id s)
    (hok : s.Fits a) (hstep : s.step a = some s') : Led id s' := by
  obtain ⟨full, halone, hrole, hlast, haccepted⟩ := h
  obtain ⟨⟨hindex, hterm⟩, hbytes⟩ := hok
  cases a with
  | propose cmd =>
      obtain ⟨hrange, hlength⟩ := hbytes
      obtain ⟨halone', hlast'⟩ : Alone id (full ++ [s.node.newEntry cmd.encode .command])
          (s.node.propose cmd.encode .command).1 ∧ _ := halone.propose hrole nofun hlength hindex
      -- a leader accepts every command
      have hproposed : s.step (.propose cmd) =
          some ⟨(s.node.propose cmd.encode .command).1, s.accepted ++ [cmd]⟩ := by
        rw [Single.step, RaftNode.propose, if_neg (by simp [hrole])]
        rfl
      rw [hproposed] at hstep
      obtain rfl := Option.some.inj hstep
      refine ⟨_, halone', (RaftNode.propose_role _ _ _).trans hrole, by simpa using hlast', ?_⟩
      rw [StateMachine.replayed_append, haccepted, ofCommands_concat]
      simp only [List.foldl_cons, List.foldl_nil, takes, RaftNode.newEntry, StateMachine.apply,
        KvStore.apply, KvCommand.decode_encode hrange]
      rfl
  | forceSnapshot =>
      obtain rfl := Option.some.inj hstep
      exact ⟨full, halone.forceSnapshot hbytes hindex, by simpa using hrole, by simpa using hlast,
        haccepted⟩
  | maybeSnapshot =>
      obtain rfl := Option.some.inj hstep
      exact ⟨full, halone.maybeSnapshot hbytes hindex, by simpa using hrole, by simpa using hlast,
        haccepted⟩
  | restart =>
      obtain rfl := Option.some.inj hstep
      -- the log on disk is the log in memory
      have hlog : (reopen s.node).log = s.node.log := halone.valid.loadFromDisk
      rw [← hlog] at hindex hterm
      exact .of_becomeCandidate halone.reopen hid hindex hterm haccepted

end Single

/-- **Recovery reconstructs the store**: in every state of every run the node
leads, and its store holds what all commands ever accepted make of an empty one,
whatever snapshots were taken and however often the process was restarted. -/
theorem recovered_store {id : NodeId} (hid : id < 2 ^ 32) {threshold : Nat}
    {addresses : List (NodeId × Bytes)} {s : Single}
    (hrun : Run Single.step Single.Fits (.init id threshold addresses) s) :
    s.node.role = .leader ∧ s.node.sm.Equiv (KvStore.ofCommands s.accepted) := by
  have hled : Single.Led id s := hrun.invariant (.init hid threshold addresses)
    fun _ _ _ h hok hstep => h.step hid hok hstep
  obtain ⟨full, halone, hrole, hlast, haccepted⟩ := hled
  have hsm := halone.sm
  rw [hlast, List.take_length, haccepted] at hsm
  exact ⟨hrole, hsm⟩

/-- Node 1 over three lives: a snapshot after two writes, a restart, a write, a
restart, a retry of the first write and one of client 8. -/
def threeLives : Single :=
  replay Single.step (.init 1 3 [])
    [.propose ⟨.put, [107], [118], [], 7, 1⟩, .propose ⟨.put, [108], [119], [], 7, 2⟩,
      .maybeSnapshot, .restart, .propose ⟨.del, [107], [], [], 7, 3⟩, .restart,
      .propose ⟨.put, [107], [118], [], 7, 1⟩, .propose ⟨.cas, [108], [120], [119], 8, 1⟩]

theorem recovered_store_of_threeLives :
    threeLives.node.incarnation = 2 ∧ threeLives.node.log.snapshotIndex = 3 ∧
      threeLives.accepted.length = 5 ∧
      threeLives.node.sm.Equiv (KvStore.ofCommands threeLives.accepted) := by
  have hrun : Run Single.step Single.Fits (.init 1 3 []) threeLives :=
    run_replay (by decide +kernel)
  exact ⟨by decide +kernel, by decide +kernel, by decide +kernel,
    (recovered_store (by norm_num) hrun).2⟩

end KvRaft
