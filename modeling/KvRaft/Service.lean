import KvRaft.Atomic
import KvRaft.HashRing
import KvRaft.Malformed
import KvRaft.Recovery

/-!
# KvRaft.Service

The server as its clients see it: connections that send requests, the shard groups
that serve them, and restarts of the process.  Each group has one voter.

Steps are whole calls: `dispatch` up to its wait is one step, with the proposal, the
commit and what is applied, and so is the answer after the wait.  Connections
interleave between those steps only.  The workers of the source can also meet between
the critical sections of one call (`KvRaft.Threads`); that a PUT is acknowledged before
it is applied, and a GET after it reads the old value, is possible there and not here.

* `Service` — the groups and where the request of each connection stands;
* `stores` — what the server is for: a map of stores that takes each request at one
  moment, and only refuses it where the group of its shard has no leader;
* `server_linearizable` — the clients see a history of that map, over all
  restarts, and no request ever times out.
-/

namespace KvRaft

open Atomic
open Single (Alone)
open StateMachine (replayed)

/-! ## A request -/

namespace KvServer

open Throwing (getTarget)

/-- What `dispatch` can do with a frame. -/
inductive Dispatches (groups : Bytes → Option (RaftNode KvStore)) (frame : Bytes) :
    Option (RaftNode KvStore) → Dispatched → Prop
  | absent {op : UInt8} {key rest : Bytes} (htarget : getTarget frame = .ok ((op, key), rest))
      (hn : groups key = none) : Dispatches groups frame none (.answered (response 2 [] []))
  | refused {op : UInt8} {key rest : Bytes} {n : RaftNode KvStore}
      (htarget : getTarget frame = .ok ((op, key), rest)) (hn : groups key = some n)
      (hrole : n.role ≠ .leader) :
      Dispatches groups frame (some n) (.answered (response 2 (addrOf n) []))
  | reading {key rest : Bytes} {n : RaftNode KvStore}
      (htarget : getTarget frame = .ok ((0, key), rest)) (hn : groups key = some n)
      (hrole : n.role = .leader) : Dispatches groups frame (some n) (.reading key n.commitIndex)
  | writing {op : UInt8} {key rest rest' : Bytes} {n : RaftNode KvStore} {cmd : KvCommand}
      (htarget : getTarget frame = .ok ((op, key), rest)) (hop : op ≠ 0)
      (hcmd : getCommand op key rest = .ok (cmd, rest')) (hn : groups key = some n)
      (hrole : n.role = .leader) :
      Dispatches groups frame (some (n.propose cmd.encode .command).1)
        (.writing cmd.encode (n.propose cmd.encode .command).2)

theorem dispatches {groups : Bytes → Option (RaftNode KvStore)} {frame : Bytes}
    {n' : Option (RaftNode KvStore)} {d : Dispatched} (h : dispatch groups frame = .ok (n', d)) :
    Dispatches groups frame n' d := by
  obtain ⟨r, h⟩ := get_run'_eq_ok.mp h
  obtain ⟨op, r₁, hop, h⟩ := get_bind_eq_ok.mp h
  obtain ⟨key, r₂, hkey, h⟩ := get_bind_eq_ok.mp h
  have htarget : getTarget frame = .ok ((op, key), r₂) :=
    get_bind_eq_ok.mpr ⟨op, r₁, hop, get_bind_eq_ok.mpr ⟨key, r₂, hkey, rfl⟩⟩
  cases hn : groups key with
  | none =>
      rw [hn] at h
      cases h
      exact .absent htarget hn
  | some n =>
      rw [hn] at h
      simp only at h
      split at h
      · next hzero =>
        -- opcode 0 reads: the leader takes its commit index as the target
        rw [hzero] at htarget
        by_cases hrole : n.role = .leader
        · rw [show n.readTarget = some n.commitIndex from if_pos hrole] at h
          cases h
          exact .reading htarget hn hrole
        · rw [show n.readTarget = none from if_neg hrole] at h
          cases h
          exact .refused htarget hn hrole
      · next hop =>
        -- any other opcode is a command to propose
        obtain ⟨cmd, r₃, hcmd, h⟩ := get_bind_eq_ok.mp h
        by_cases hrole : n.role = .leader
        · have hleader : (n.propose cmd.encode .command).2.isLeader = true := by
            rw [RaftNode.propose, if_neg (not_not.mpr hrole)]
          simp only [hleader, if_true] at h
          cases h
          exact .writing htarget hop hcmd hn hrole
        · have hrefused : n.propose cmd.encode .command = (n, ⟨false, n.leaderId, 0, 0⟩) := by
            rw [RaftNode.propose, if_pos hrole]
          simp only [hrefused] at h
          cases h
          exact .refused htarget hn hrole

/-- The command of a request is no longer than the request, and can be read back. -/
theorem getCommand_fits {op : UInt8} {frame key rest rest' : Bytes} {cmd : KvCommand}
    (htarget : getTarget frame = .ok ((op, key), rest))
    (hcmd : getCommand op key rest = .ok (cmd, rest')) :
    cmd.InRange ∧ cmd.encode.length ≤ frame.length := by
  obtain ⟨_, r₁, hop, htarget⟩ := get_bind_eq_ok.mp htarget
  obtain ⟨_, r₂, hkey, htarget⟩ := get_bind_eq_ok.mp htarget
  cases htarget
  obtain ⟨value, r₃, hvalue, hcmd⟩ := get_bind_eq_ok.mp hcmd
  obtain ⟨expect, r₄, hexpect, hcmd⟩ := get_bind_eq_ok.mp hcmd
  obtain ⟨clientId, r₅, hclient, hcmd⟩ := get_bind_eq_ok.mp hcmd
  obtain ⟨seq, r₆, hseq, hcmd⟩ := get_bind_eq_ok.mp hcmd
  cases hcmd
  refine ⟨⟨getBytes_length hkey, getBytes_length hvalue, getBytes_length hexpect,
    getU64_lt hclient, getU64_lt hseq⟩, ?_⟩
  rw [Consumes.u8 _ _ _ hop, Consumes.bytes _ _ _ hkey, Consumes.bytes _ _ _ hvalue,
    Consumes.bytes _ _ _ hexpect, Consumes.u64 _ _ _ hclient, Consumes.u64 _ _ _ hseq]
  simp only [KvCommand.encode, putU8, List.length_append, List.length_singleton]
  omega

end KvServer

/-! ## The server -/

/-- What a group is started with. -/
structure Service.Seed where
  id : NodeId
  threshold : Nat
  addresses : List (NodeId × Bytes)

/-- Where the request of a connection stands. -/
inductive Service.Stage
  | idle
  | called (frame : Bytes)
  /-- the read barrier waits for `target` -/
  | reading (shardId : Nat) (key : Bytes) (target : Nat)
  /-- `waitApplied` waits for the proposal -/
  | writing (shardId : Nat) (proposed : ProposeResult)
  | answered (respPayload : Bytes)

structure Service where
  ring : HashRing
  /-- `ShardManager::group` -/
  group : Nat → Option (RaftNode KvStore)
  stages : Nat → Service.Stage
  history : List (Event Nat Bytes Bytes)

namespace Service

inductive Action
  | call (conn : Nat) (frame : Bytes)
  | dispatch (conn : Nat)
  /-- what the request waits for is there -/
  | finish (conn : Nat)
  /-- the wait times out -/
  | giveUp (conn : Nat)
  | reply (conn : Nat)
  /-- the election timer of a group -/
  | elect (shardId : Nat)
  | forceSnapshot (shardId : Nat)
  | maybeSnapshot (shardId : Nat)
  | restart

def start (ring : HashRing) (seeds : Nat → Option Seed) : Service where
  ring
  group shardId := (seeds shardId).map fun seed =>
    .new seed.id seed.threshold ⟨[seed.id], seed.addresses⟩ .empty 0 []
  stages _ := .idle
  history := []

def setStage (s : Service) (conn : Nat) (stage : Stage) : Service :=
  { s with stages := Function.update s.stages conn stage }

def setGroup (s : Service) (shardId : Nat) (n : RaftNode KvStore) : Service :=
  { s with group := Function.update s.group shardId (some n) }

/-- The process is gone and started again on its files. -/
def restart (s : Service) : Service :=
  { s with
    group := fun shardId => (s.group shardId).map Single.reopen
    stages := fun _ => .idle
    history := s.history ++ [.reset] }

/-- The shard of the key of a request. -/
def shardOf (s : Service) (frame : Bytes) : Nat :=
  match Throwing.getTarget frame with
  | .ok ((_, key), _) => s.ring.shardFor key
  | .error _ => 0

/-- The stage a request comes to when it is dispatched. -/
def Stage.of (shardId : Nat) : KvServer.Dispatched → Stage
  | .answered bytes => .answered bytes
  | .reading key target => .reading shardId key target
  | .writing _ proposed => .writing shardId proposed

/-- `dispatch` up to its wait, as one step: a proposal is committed and applied before
anybody else gets to the node.  An exception that leaves it ends the process. -/
def dispatch (s : Service) (conn : Nat) (frame : Bytes) : Service :=
  match KvServer.dispatch (fun key => s.group (s.ring.shardFor key)) frame with
  | .error _ => s.restart
  | .ok (none, dispatched) => s.setStage conn (.of (s.shardOf frame) dispatched)
  | .ok (some n, dispatched) =>
      (s.setGroup (s.shardOf frame) n).setStage conn (.of (s.shardOf frame) dispatched)

/-- The answer of a request that does not have to wait any more. -/
def finish (s : Service) : Stage → Option Bytes
  | .reading shardId key target => do KvServer.finishRead (← s.group shardId) key target
  | .writing shardId proposed => do KvServer.finishWrite (← s.group shardId) proposed
  | _ => none

/-- The answer of a request that has waited for too long. -/
def giveUp (s : Service) : Stage → Option Bytes
  | .reading shardId _ _ => do return KvServer.response 2 (KvServer.addrOf (← s.group shardId)) []
  | .writing _ _ => some (KvServer.response 4 [] [])
  | _ => none

def step (s : Service) : Action → Option Service
  | .call conn frame =>
      match s.stages conn with
      | .idle => some
          { s.setStage conn (.called frame) with history := s.history ++ [.call conn frame] }
      | _ => none
  | .dispatch conn =>
      match s.stages conn with
      | .called frame => some (s.dispatch conn frame)
      | _ => none
  | .finish conn => (s.finish (s.stages conn)).map fun bytes => s.setStage conn (.answered bytes)
  | .giveUp conn =>
      -- a wait ends in a timeout only if its condition does not hold then
      if (s.finish (s.stages conn)).isSome then none
      else (s.giveUp (s.stages conn)).map fun bytes => s.setStage conn (.answered bytes)
  | .reply conn =>
      match s.stages conn with
      | .answered bytes => some
          { s.setStage conn .idle with history := s.history ++ [.reply conn bytes] }
      | _ => none
  | .elect shardId => do
      let n ← s.group shardId
      -- the timer of a single voter: it stands and wins at once
      if n.role = .leader then none else some (s.setGroup shardId n.becomeCandidate.1)
  | .forceSnapshot shardId => do return s.setGroup shardId (← s.group shardId).forceSnapshot
  | .maybeSnapshot shardId => do return s.setGroup shardId (← s.group shardId).maybeSnapshot
  | .restart => some s.restart

/-- The next index and term of a node are still 64-bit numbers, and its snapshot has
a 32-bit length. -/
def Roomy (n : RaftNode KvStore) : Prop :=
  n.log.lastIndex + 1 < 2 ^ 64 ∧ n.log.currentTerm + 1 < 2 ^ 64 ∧ n.sm.snapshot.length < 2 ^ 32

/-- A frame has a 32-bit length, and there is room for its command. -/
def FitsFrame (s : Service) : Stage → Prop
  | .called frame => frame.length < 2 ^ 32 ∧ ∀ n ∈ s.group (s.shardOf frame), Roomy n
  | _ => True

/-- Frames have a 32-bit length, and the numbers of the nodes fit their types. -/
def Fits (s : Service) : Action → Prop
  | .dispatch conn => s.FitsFrame (s.stages conn)
  | .elect shardId | .forceSnapshot shardId | .maybeSnapshot shardId =>
      ∀ n ∈ s.group shardId, Roomy n
  | _ => True

end Service

/-! ## What the server is for -/

/-- The store of each shard, and whether its group has a leader. -/
abbrev Shards := Nat → Option (KvStore × Bool)

namespace Shards

open Throwing (getTarget)

def start (seeds : Nat → Option Service.Seed) : Shards :=
  fun shardId => (seeds shardId).map fun _ => (.empty, false)

/-- The answer to a GET. -/
def readResponse : Option Bytes → Bytes
  | some value => KvServer.response 0 [] value
  | none => KvServer.response 1 [] []

theorem finishRead_eq {n : RaftNode KvStore} {target : Nat} (h : target ≤ n.lastApplied)
    (key : Bytes) : KvServer.finishRead n key target = some (readResponse (n.sm.get key)) := by
  rw [KvServer.finishRead, if_pos h]
  cases n.sm.get key <;> rfl

/-- The effect of a request and its answer. -/
inductive Serves (ring : HashRing) (shards : Shards) (frame : Bytes) : Shards → Bytes → Prop
  | absent {op : UInt8} {key rest : Bytes} (htarget : getTarget frame = .ok ((op, key), rest))
      (hshard : shards (ring.shardFor key) = none) :
      Serves ring shards frame shards (KvServer.response 2 [] [])
  | refused {op : UInt8} {key rest : Bytes} {store : KvStore} (hint : Bytes)
      (htarget : getTarget frame = .ok ((op, key), rest))
      (hshard : shards (ring.shardFor key) = some (store, false)) :
      Serves ring shards frame shards (KvServer.response 2 hint [])
  | read {key rest : Bytes} {store : KvStore} (htarget : getTarget frame = .ok ((0, key), rest))
      (hshard : shards (ring.shardFor key) = some (store, true)) :
      Serves ring shards frame shards (readResponse (store.get key))
  | write {op : UInt8} {key rest rest' : Bytes} {cmd : KvCommand} {store : KvStore}
      (htarget : getTarget frame = .ok ((op, key), rest)) (hop : op ≠ 0)
      (hcmd : KvServer.getCommand op key rest = .ok (cmd, rest'))
      (hshard : shards (ring.shardFor key) = some (store, true)) :
      Serves ring shards frame
        (Function.update shards (ring.shardFor key) (some ((store.applyCommand cmd).1, true)))
        (KvServer.writeResponse (store.applyCommand cmd).2)

/-- A group gets a leader. -/
inductive Elects (shards : Shards) : Shards → Prop
  | elect {shardId : Nat} {store : KvStore} (h : shards shardId = some (store, false)) :
      Elects shards (Function.update shards shardId (some (store, true)))

end Shards

/-- A map of stores. -/
def stores (ring : HashRing) : Object Shards Bytes Bytes where
  serves := Shards.Serves ring
  moves := Shards.Elects
  reset shards := fun shardId => (shards shardId).map fun store => (store.1, false)

/-! ## The node of a group -/

namespace Single.Alone

variable {id : NodeId} {full : List LogEntry} {n : RaftNode KvStore}

/-- A proposal of a leader that has applied everything leaves its result, and those
of earlier entries stay. -/
theorem propose_results (h : Alone id full n) (hrole : n.role = .leader)
    (hall : n.lastApplied = full.length) {bytes : Bytes} (hbytes : bytes.length < 2 ^ 32)
    (hindex : n.log.lastIndex + 1 < 2 ^ 64) :
    (n.propose bytes .command).1.pendingResults =
      n.pendingResults.insert (full.length + 1)
        (StateMachine.apply n.sm bytes (full.length + 1)).2 := by
  obtain ⟨halone, happlied⟩ : Alone id (full ++ [n.newEntry bytes .command])
      (n.propose bytes .command).1 ∧ _ := h.propose hrole (by decide) hbytes hindex
  have hcommit := halone.commitIndex.trans happlied
  have hrep := halone.represents
  rw [RaftNode.propose_log hrole] at hrep
  set e := n.newEntry bytes .command with he
  rw [RaftNode.propose_fst hrole] at happlied hcommit ⊢
  set m : RaftNode KvStore := { n with log := n.log.appendAndSync [e] } with hm
  obtain heq | ⟨i, -, -, -, heq⟩ := m.tryAdvanceCommitIndex_cases
  · -- the entry was applied, so the node has moved on
    rw [heq] at happlied
    change n.lastApplied = full.length + 1 at happlied
    omega
  · -- the only voter advances to its new entry
    have hi : i = full.length + 1 := by
      rw [heq] at hcommit
      obtain ⟨_, _, _, _, _, _, hout, -⟩ :=
        RaftNode.applyCommittedEntries_eq ({ m with commitIndex := i } : RaftNode KvStore)
      rw [hout] at hcommit
      exact hcommit
    subst hi
    -- and the batch is that entry alone, for all before it was applied
    have hbatch : RaftNode.toApply { m with commitIndex := full.length + 1 } = [e] := by
      have hsnap : m.log.snapshotIndex ≤ n.lastApplied := by
        rw [hm]
        change (n.log.appendAndSync [e]).snapshotIndex ≤ _
        rw [PersistentLog.appendAndSync_snapshotIndex]
        exact h.snap_le
      rw [RaftNode.toApply, RaftNode.collect_eq hrep hsnap]
      change ((full ++ [e]).drop n.lastApplied).take (full.length + 1 - n.lastApplied) = [e]
      rw [hall, List.drop_left, Nat.add_sub_cancel_left]
      rfl
    rw [heq, RaftNode.applyCommittedEntries, hbatch]
    have hlast : n.log.lastIndex = full.length := h.represents.lastIndex
    rw [← hlast]
    rfl

/-- The first process of a group. -/
theorem of_seed (id : NodeId) (threshold : Nat) (addresses : List (NodeId × Bytes)) :
    Alone id [] (.new id threshold ⟨[id], addresses⟩ .empty 0 []) :=
  .of_new rfl ⟨.nil 0, rfl, ⟨Nat.two_pow_pos 64, Nat.two_pow_pos 32, Nat.two_pow_pos 64,
    Nat.two_pow_pos 64, fun _ h => by cases h⟩⟩ ⟨Nat.le_refl 0, rfl, rfl, .nil 0⟩
    (fun _ h => by cases h) (fun _ h => by cases h)

end Single.Alone

namespace Service

/-- The node is the only voter of its group, the store is what its log makes, and a
leader has applied all of it. -/
def Holds (n : RaftNode KvStore) (store : KvStore × Bool) : Prop :=
  ∃ id full, id < 2 ^ 32 ∧ Alone id full n ∧ store = (replayed full, decide (n.role = .leader)) ∧
    (n.role = .leader → n.lastApplied = full.length)

/-- What a request on a leader waits for stays there. -/
structure Later (n n' : RaftNode KvStore) : Prop where
  role : n'.role = n.role
  applied : n.lastApplied ≤ n'.lastApplied
  results : ∀ i ≤ n.lastApplied, n'.pendingResults.lookup i = n.pendingResults.lookup i

theorem Later.refl (n : RaftNode KvStore) : Later n n := ⟨rfl, Nat.le_refl _, fun _ _ => rfl⟩

theorem Later.forceSnapshot (n : RaftNode KvStore) : Later n n.forceSnapshot := by
  obtain h | h := n.forceSnapshot_cases
  · rw [h]; exact .refl n
  · rw [h]; exact ⟨rfl, Nat.le_refl _, fun _ _ => rfl⟩

theorem Later.maybeSnapshot (n : RaftNode KvStore) : Later n n.maybeSnapshot := by
  unfold RaftNode.maybeSnapshot
  split
  · exact .forceSnapshot n
  · exact .refl n

namespace Holds

variable {n : RaftNode KvStore} {store : KvStore × Bool}

theorem leads (h : Holds n store) : store.2 = decide (n.role = .leader) := by
  obtain ⟨_, _, -, -, rfl, -⟩ := h
  rfl

theorem reopen (h : Holds n store) : Holds (Single.reopen n) (store.1, false) := by
  obtain ⟨id, full, hid, halone, rfl, -⟩ := h
  exact ⟨id, full, hid, halone.reopen, rfl, fun hrole => by cases hrole⟩

/-- The node wins its election, and the no-op leaves the store alone. -/
theorem becomeCandidate (h : Holds n store) (hroom : Roomy n) :
    Holds n.becomeCandidate.1 (store.1, true) := by
  obtain ⟨id, full, hid, halone, rfl, -⟩ := h
  obtain ⟨e, htype, halone', hrole, hlast⟩ := halone.becomeCandidate hid hroom.1 hroom.2.1
  refine ⟨id, full ++ [e], hid, halone', ?_, fun _ => hlast⟩
  rw [StateMachine.replayed_append]
  simp only [List.foldl_cons, List.foldl_nil, StateMachine.takes, htype, hrole, decide_true]

theorem forceSnapshot (h : Holds n store) (hroom : Roomy n) : Holds n.forceSnapshot store := by
  obtain ⟨id, full, hid, halone, rfl, hall⟩ := h
  refine ⟨id, full, hid, halone.forceSnapshot hroom.2.2 hroom.1, ?_, ?_⟩
  · rw [(Later.forceSnapshot n).role]
  · simpa using hall

theorem maybeSnapshot (h : Holds n store) (hroom : Roomy n) : Holds n.maybeSnapshot store := by
  unfold RaftNode.maybeSnapshot
  split
  · exact h.forceSnapshot hroom
  · exact h

/-- A leader reads the store. -/
theorem get (h : Holds n store) (hrole : n.role = .leader) (key : Bytes) :
    n.sm.get key = store.1.get key := by
  obtain ⟨id, full, -, halone, rfl, hall⟩ := h
  have hsm := halone.sm
  rw [hall hrole, List.take_length] at hsm
  exact hsm.get key

theorem commitIndex (h : Holds n store) : n.commitIndex = n.lastApplied := by
  obtain ⟨_, _, -, halone, -⟩ := h
  exact halone.commitIndex

/-- A command is applied as it is proposed, and its result can be fetched. -/
theorem propose (h : Holds n store) (hrole : n.role = .leader) (hroom : Roomy n)
    {cmd : KvCommand} (hrange : cmd.InRange) (hbytes : cmd.encode.length < 2 ^ 32) :
    Holds (n.propose cmd.encode .command).1 ((store.1.applyCommand cmd).1, true) ∧
      Later n (n.propose cmd.encode .command).1 ∧
      (n.propose cmd.encode .command).2.index ≤ (n.propose cmd.encode .command).1.lastApplied ∧
      (n.propose cmd.encode .command).1.pendingResults.lookup
        (n.propose cmd.encode .command).2.index = some (store.1.applyCommand cmd).2 := by
  obtain ⟨id, full, hid, halone, rfl, hall⟩ := h
  have hall := hall hrole
  have hlast : n.log.lastIndex = full.length := halone.represents.lastIndex
  obtain ⟨halone', happlied⟩ : Alone id (full ++ [n.newEntry cmd.encode .command])
      (n.propose cmd.encode .command).1 ∧ _ := halone.propose hrole (by decide) hbytes hroom.1
  have hresults := halone.propose_results hrole hall hbytes hroom.1
  have hindex : (n.propose cmd.encode .command).2.index = full.length + 1 := by
    rw [RaftNode.propose, if_neg (not_not.mpr hrole), ← hlast]
    rfl
  -- what is applied is the command that was encoded
  have happly : ∀ s : KvStore, StateMachine.apply s cmd.encode (full.length + 1) =
      s.applyCommand cmd := by
    intro s
    simp only [StateMachine.apply, KvStore.apply, KvCommand.decode_encode hrange]
    rfl
  have hsm := halone.sm
  rw [hall, List.take_length] at hsm
  refine ⟨⟨id, _, hid, halone', ?_, fun _ => ?_⟩, ⟨RaftNode.propose_role _ _ _, ?_, ?_⟩, ?_, ?_⟩
  · -- the store is one command further
    rw [StateMachine.replayed_append, RaftNode.propose_role, hrole]
    simp only [List.foldl_cons, List.foldl_nil, StateMachine.takes, RaftNode.newEntry, hlast,
      happly, decide_true]
  · rw [happlied, List.length_append]
    rfl
  · omega
  · -- results of earlier entries stay where they are
    intro i hi
    rw [hresults, AList.lookup_insert_ne (by omega)]
  · omega
  · rw [hindex, hresults, AList.lookup_insert, happly, (hsm.applyCommand cmd).2]

end Holds

/-! ## The object follows the server -/

open Throwing (getTarget)

/-- Where a request stands with the server and with the object.  A write takes effect
when it is dispatched and a read when its barrier is passed. -/
inductive Agrees (ring : HashRing) (group : Nat → Option (RaftNode KvStore)) :
    Stage → Status Bytes Bytes → Prop
  | idle : Agrees ring group .idle .idle
  | called (frame : Bytes) : Agrees ring group (.called frame) (.called frame)
  | reading {frame key rest : Bytes} {n : RaftNode KvStore} {target : Nat}
      (htarget : getTarget frame = .ok ((0, key), rest))
      (hn : group (ring.shardFor key) = some n) (hrole : n.role = .leader)
      (happlied : target ≤ n.lastApplied) :
      Agrees ring group (.reading (ring.shardFor key) key target) (.called frame)
  | writing {shardId : Nat} {n : RaftNode KvStore} {proposed : ProposeResult} {result : Bytes}
      (hn : group shardId = some n) (hrole : n.role = .leader)
      (happlied : proposed.index ≤ n.lastApplied)
      (hresult : n.pendingResults.lookup proposed.index = some result) :
      Agrees ring group (.writing shardId proposed) (.served (KvServer.writeResponse result))
  | answered (bytes : Bytes) : Agrees ring group (.answered bytes) (.served bytes)

/-- A request does not mind what its group does as long as it has a leader. -/
theorem Agrees.setGroup {ring : HashRing} {group : Nat → Option (RaftNode KvStore)} {shardId : Nat}
    {n n' : RaftNode KvStore} {stage : Stage} {status : Status Bytes Bytes}
    (h : Agrees ring group stage status) (hn : group shardId = some n)
    (hlater : n.role = .leader → Later n n') :
    Agrees ring (Function.update group shardId (some n')) stage status := by
  -- a leader that goes on has what it had applied and the results it had stored
  have hnext : ∀ {shard m}, group shard = some m → m.role = .leader →
      ∃ m', Function.update group shardId (some n') shard = some m' ∧ Later m m' := by
    intro shard m hm hrole
    by_cases heq : shard = shardId
    · subst heq
      obtain rfl : n = m := Option.some.inj (hn.symm.trans hm)
      exact ⟨n', Function.update_self .., hlater hrole⟩
    · exact ⟨m, by rw [Function.update_of_ne heq, hm], .refl m⟩
  cases h with
  | idle => exact .idle
  | called frame => exact .called frame
  -- the barrier's target is still applied
  | reading htarget hm hrole happlied =>
      obtain ⟨m', hm', hlater⟩ := hnext hm hrole
      exact .reading htarget hm' (hlater.role.trans hrole) (happlied.trans hlater.applied)
  | writing hm hrole happlied hresult =>
      obtain ⟨m', hm', hlater⟩ := hnext hm hrole
      exact .writing hm' (hlater.role.trans hrole) (happlied.trans hlater.applied)
        ((hlater.results _ happlied).trans hresult)
  | answered bytes => exact .answered bytes

/-- The object has the stores of the groups, and each request is as far. -/
structure Follows (ring : HashRing) (s : Service) (t : Shared Nat Shards Bytes Bytes) : Prop where
  routes : s.ring = ring
  groups : ∀ shardId, Option.Rel Holds (s.group shardId) (t.object shardId)
  stages : ∀ conn, Agrees ring s.group (s.stages conn) (t.clients conn)
  history : t.history = s.history

namespace Follows

variable {ring : HashRing} {s : Service} {t : Shared Nat Shards Bytes Bytes} {conn shardId : Nat}
  {n n' : RaftNode KvStore}

theorem start (ring : HashRing) {seeds : Nat → Option Seed}
    (hids : ∀ shardId, ∀ seed ∈ seeds shardId, seed.id < 2 ^ 32) :
    Follows ring (.start ring seeds) (Object.start (.start seeds)) where
  routes := rfl
  groups shardId := by
    cases hseed : seeds shardId with
    | none =>
        simp only [Service.start, Object.start, Shards.start, hseed, Option.map_none]
        exact .none
    | some seed =>
        simp only [Service.start, Object.start, Shards.start, hseed, Option.map_some]
        exact .some ⟨seed.id, [], hids shardId seed hseed, .of_seed .., rfl,
          fun hrole => by cases hrole⟩
  stages _ := .idle
  history := rfl

/-- The store of a group. -/
theorem exists_store (h : Follows ring s t) (hn : s.group shardId = some n) :
    ∃ store, t.object shardId = some (store, decide (n.role = .leader)) ∧
      Holds n (store, decide (n.role = .leader)) := by
  have hrel := h.groups shardId
  rw [hn] at hrel
  cases hstore : t.object shardId with
  | none => rw [hstore] at hrel; cases hrel
  | some store =>
      rw [hstore] at hrel
      cases hrel with
      | some hholds =>
          obtain ⟨store, leads⟩ := store
          obtain rfl : leads = decide (n.role = .leader) := hholds.leads
          exact ⟨store, rfl, hholds⟩

theorem no_store (h : Follows ring s t) (hn : s.group shardId = none) :
    t.object shardId = none := by
  have hrel := h.groups shardId
  rw [hn] at hrel
  cases hstore : t.object shardId with
  | none => rfl
  | some store => rw [hstore] at hrel; cases hrel

theorem setStage (h : Follows ring s t) (conn : Nat) {stage : Stage} {status : Status Bytes Bytes}
    (hagrees : Agrees ring s.group stage status) :
    Follows ring (s.setStage conn stage)
      { t with clients := Function.update t.clients conn status } where
  routes := h.routes
  groups := h.groups
  stages c := by
    by_cases heq : c = conn
    · subst heq
      simp only [Service.setStage, Function.update_self]
      exact hagrees
    · simp only [Service.setStage, Function.update_of_ne heq]
      exact h.stages c
  history := h.history

theorem setGroup (h : Follows ring s t) (hn : s.group shardId = some n)
    {store : KvStore × Bool} (hholds : Holds n' store) (hlater : n.role = .leader → Later n n') :
    Follows ring (s.setGroup shardId n')
      { t with object := Function.update t.object shardId (some store) } where
  routes := h.routes
  groups shard := by
    by_cases heq : shard = shardId
    · subst heq
      simp only [Service.setGroup, Function.update_self]
      exact .some hholds
    · simp only [Service.setGroup, Function.update_of_ne heq]
      exact h.groups shard
  stages c := (h.stages c).setGroup hn hlater
  history := h.history

/-- A group goes on by itself. -/
theorem setGroup_same (h : Follows ring s t) (hn : s.group shardId = some n)
    (hkeep : ∀ store, Holds n store → Holds n' store) (hlater : Later n n') :
    Follows ring (s.setGroup shardId n') t := by
  obtain ⟨store, hstore, hholds⟩ := h.exists_store hn
  have hset := h.setGroup hn (hkeep _ hholds) fun _ => hlater
  rwa [← hstore, Function.update_eq_self] at hset

theorem restart (h : Follows ring s t) :
    ∃ t', (stores ring).Step t t' ∧ Follows ring s.restart t' := by
  refine ⟨_, .reset t, h.routes, fun shardId => ?_, fun _ => .idle, ?_⟩
  · cases hn : s.group shardId with
    | none =>
        simp only [Service.restart, stores, hn, h.no_store hn, Option.map_none]
        exact .none
    | some n =>
        obtain ⟨store, hstore, hholds⟩ := h.exists_store hn
        simp only [Service.restart, stores, hn, hstore, Option.map_some]
        exact .some hholds.reopen
  · simp only [Service.restart, h.history]

/-- A request that waits need not wait. -/
theorem finish_of_giveUp (h : Follows ring s t) {bytes : Bytes}
    (hgive : s.giveUp (s.stages conn) = some bytes) : (s.finish (s.stages conn)).isSome = true := by
  have hagrees := h.stages conn
  generalize s.stages conn = stage, t.clients conn = status at hagrees hgive
  cases hagrees with
  | idle => cases hgive
  | called frame => cases hgive
  | reading htarget hn hrole happlied =>
      simp only [Service.finish, hn, Option.bind_eq_bind, Option.bind_some,
        Shards.finishRead_eq happlied, Option.isSome_some]
  | writing hn hrole happlied hresult =>
      simp only [Service.finish, hn, Option.bind_eq_bind, Option.bind_some, KvServer.finishWrite,
        RaftNode.waitApplied, if_pos happlied]
      rfl
  | answered bytes => cases hgive

/-- A request that is taken up. -/
theorem dispatch (h : Follows ring s t) {frame : Bytes} (hcalled : s.stages conn = .called frame)
    (hlength : frame.length < 2 ^ 32) (hroom : ∀ n ∈ s.group (s.shardOf frame), Roomy n) :
    ∃ t', Relation.ReflTransGen (stores ring).Step t t' ∧
      Follows ring (s.dispatch conn frame) t' := by
  -- the connection waits for its answer in both
  have hclient : t.clients conn = .called frame := by
    have hagrees := h.stages conn
    rw [hcalled] at hagrees
    generalize t.clients conn = status at hagrees
    cases hagrees
    rfl
  have hshard : ∀ {op key rest}, getTarget frame = .ok ((op, key), rest) →
      s.shardOf frame = ring.shardFor key := by
    intro op key rest htarget
    rw [shardOf, htarget, h.routes]
  unfold Service.dispatch
  cases hd : KvServer.dispatch (fun key => s.group (s.ring.shardFor key)) frame with
  -- a frame that does not decode ends the process, and the clients lose their answers
  | error msg =>
      obtain ⟨t', hstep, hfollows⟩ := h.restart
      exact ⟨t', .single hstep, hfollows⟩
  | ok out =>
      obtain ⟨n', dispatched⟩ := out
      rw [h.routes] at hd
      cases KvServer.dispatches hd with
      | absent htarget hn =>
          exact ⟨_, .single (.serve hclient (.absent htarget (h.no_store hn))),
            h.setStage conn (.answered _)⟩
      | refused htarget hn hrole =>
          obtain ⟨store, hstore, -⟩ := h.exists_store hn
          rw [decide_eq_false hrole] at hstore
          rw [← hshard htarget] at hn
          exact ⟨_, .single (.serve hclient (.refused _ htarget hstore)),
            (h.setGroup_same hn (fun _ hn => hn) (.refl _)).setStage conn (.answered _)⟩
      -- nothing happens to the stores yet: the read takes effect when it is finished
      | reading htarget hn hrole =>
          obtain ⟨store, hstore, hholds⟩ := h.exists_store hn
          have hset := h.setGroup_same (hshard htarget ▸ hn) (fun _ hn => hn) (.refl _)
          have hagrees := hset.setStage conn (.reading htarget
            (by rw [Service.setGroup, hshard htarget]; exact Function.update_self ..) hrole
            (Nat.le_of_eq hholds.commitIndex))
          rw [← hclient, Function.update_eq_self, ← hshard htarget] at hagrees
          exact ⟨t, .refl, hagrees⟩
      -- the proposal is applied within the call, and that is where the write takes effect
      | writing htarget hop hcmd hn hrole =>
          obtain ⟨store, hstore, hholds⟩ := h.exists_store hn
          rw [decide_eq_true hrole] at hstore
          rw [← hshard htarget] at hn
          obtain ⟨hrange, hle⟩ := KvServer.getCommand_fits htarget hcmd
          obtain ⟨hholds', hlater, happlied, hresult⟩ :=
            hholds.propose hrole (hroom _ hn) hrange (by omega)
          refine ⟨_, .single (.serve hclient (.write htarget hop hcmd hstore)), ?_⟩
          have hset := h.setGroup hn hholds' fun _ => hlater
          rw [hshard htarget] at hset ⊢
          exact hset.setStage conn (.writing (Function.update_self ..)
            (hlater.role.trans hrole) happlied hresult)

/-- The answer to a request that has waited. -/
theorem answer (h : Follows ring s t) {bytes : Bytes}
    (hfinish : s.finish (s.stages conn) = some bytes) :
    ∃ t', Relation.ReflTransGen (stores ring).Step t t' ∧
      Follows ring (s.setStage conn (.answered bytes)) t' := by
  have hagrees := h.stages conn
  generalize hstage : s.stages conn = stage, hstatus : t.clients conn = status at hagrees hfinish
  cases hagrees with
  | idle => cases hfinish
  | called frame => cases hfinish
  -- the barrier is through, so the store is read now
  | reading htarget hn hrole happlied =>
      obtain ⟨store, hstore, hholds⟩ := h.exists_store hn
      rw [decide_eq_true hrole] at hstore
      simp only [Service.finish, hn, Option.bind_eq_bind, Option.bind_some,
        Shards.finishRead_eq happlied, hholds.get hrole, Option.some.injEq] at hfinish
      subst hfinish
      exact ⟨_, .single (.serve hstatus (.read htarget hstore)), h.setStage conn (.answered _)⟩
  -- the result is the one that was stored when the command was applied
  | writing hn hrole happlied hresult =>
      simp only [Service.finish, hn, Option.bind_eq_bind, Option.bind_some, KvServer.finishWrite,
        RaftNode.waitApplied, if_pos happlied, hresult, Option.getD_some, Option.map_some,
        Option.some.injEq] at hfinish
      have hset := h.setStage conn (.answered bytes)
      rw [← hfinish, ← hstatus, Function.update_eq_self] at hset
      exact ⟨t, .refl, hfinish ▸ hset⟩
  | answered bytes => cases hfinish

theorem step (h : Follows ring s t) {a : Action} {s' : Service} (hok : s.Fits a)
    (hstep : s.step a = some s') :
    ∃ t', Relation.ReflTransGen (stores ring).Step t t' ∧ Follows ring s' t' := by
  cases a with
  | call conn frame =>
      cases hstage : s.stages conn with
      | idle =>
          simp only [Service.step, hstage, Option.some.injEq] at hstep
          have hagrees := h.stages conn
          rw [hstage] at hagrees
          generalize hstatus : t.clients conn = status at hagrees
          cases hagrees
          subst hstep
          exact ⟨_, .single (.call conn frame hstatus),
            { h.setStage conn (.called frame) with
              history := by rw [h.history] }⟩
      | _ => simp [Service.step, hstage] at hstep
  | dispatch conn =>
      cases hstage : s.stages conn with
      | called frame =>
          simp only [Service.step, hstage, Option.some.injEq] at hstep
          simp only [Service.Fits, Service.FitsFrame, hstage] at hok
          subst hstep
          exact h.dispatch hstage hok.1 hok.2
      | _ => simp [Service.step, hstage] at hstep
  | finish conn =>
      obtain ⟨bytes, hfinish, rfl⟩ := Option.map_eq_some_iff.mp hstep
      exact h.answer hfinish
  | giveUp conn =>
      simp only [Service.step] at hstep
      split at hstep
      · cases hstep
      · next hwait =>
        -- a wait never ends in a time-out, because what it waits for has happened
        obtain ⟨bytes, hgive, -⟩ := Option.map_eq_some_iff.mp hstep
        exact absurd (h.finish_of_giveUp hgive) hwait
  | reply conn =>
      cases hstage : s.stages conn with
      | answered bytes =>
          simp only [Service.step, hstage, Option.some.injEq] at hstep
          have hagrees := h.stages conn
          rw [hstage] at hagrees
          generalize hstatus : t.clients conn = status at hagrees
          cases hagrees
          subst hstep
          exact ⟨_, .single (.reply hstatus),
            { h.setStage conn .idle with history := by rw [h.history] }⟩
      | _ => simp [Service.step, hstage] at hstep
  | elect shardId =>
      obtain ⟨n, hn, hstep⟩ := Option.bind_eq_some_iff.mp hstep
      split at hstep
      · cases hstep
      · next hrole =>
        -- a new leader has everything in its log committed and applied
        cases hstep
        obtain ⟨store, hstore, hholds⟩ := h.exists_store hn
        rw [decide_eq_false hrole] at hstore
        exact ⟨_, .single (.move (.elect hstore)),
          h.setGroup hn (hholds.becomeCandidate (hok n hn)) fun hlead => absurd hlead hrole⟩
  | forceSnapshot shardId =>
      obtain ⟨n, hn, hstep⟩ := Option.bind_eq_some_iff.mp hstep
      cases hstep
      exact ⟨t, .refl, h.setGroup_same hn (fun _ hholds => hholds.forceSnapshot (hok n hn))
        (.forceSnapshot n)⟩
  | maybeSnapshot shardId =>
      obtain ⟨n, hn, hstep⟩ := Option.bind_eq_some_iff.mp hstep
      cases hstep
      exact ⟨t, .refl, h.setGroup_same hn (fun _ hholds => hholds.maybeSnapshot (hok n hn))
        (.maybeSnapshot n)⟩
  | restart =>
      cases hstep
      obtain ⟨t', hreset, hfollows⟩ := h.restart
      exact ⟨t', .single hreset, hfollows⟩

end Follows

end Service

/-- **The server is linearizable between its calls**: in every run of a server whose groups
have one voter each, with any number of connections, snapshots and restarts, the clients see
a history of a map of stores that serves each request at one moment between its call and its
reply, and no request times out.  Handlers are atomic, and frames, indices, terms and
snapshots fit their widths (`Service.Fits`). -/
theorem server_linearizable (ring : HashRing) {seeds : Nat → Option Service.Seed}
    (hids : ∀ shardId, ∀ seed ∈ seeds shardId, seed.id < 2 ^ 32) {s : Service}
    (hrun : Run Service.step Service.Fits (.start ring seeds) s) :
    (stores ring).Linearizable (.start seeds) s.history ∧ ∀ conn, s.step (.giveUp conn) = none := by
  obtain ⟨t, hlin, hfollows⟩ := (stores ring).follow (Service.Follows.start ring hids)
    (fun _ _ _ _ h hok hstep => h.step hok hstep) hrun
  refine ⟨hfollows.history ▸ hlin, fun conn => ?_⟩
  simp only [Service.step]
  split
  · rfl
  · next hwait =>
    cases hgive : s.giveUp (s.stages conn) with
    | none => rfl
    | some bytes => exact absurd (hfollows.finish_of_giveUp hgive) hwait

instance (n : RaftNode KvStore) : Decidable (Service.Roomy n) :=
  inferInstanceAs (Decidable (_ ∧ _ ∧ _))

instance (s : Service) (stage : Service.Stage) : Decidable (s.FitsFrame stage) :=
  match stage with
  | .called frame =>
      inferInstanceAs (Decidable (frame.length < 2 ^ 32 ∧ ∀ n ∈ s.group (s.shardOf frame), _))
  | .idle | .reading _ _ _ | .writing _ _ | .answered _ => inferInstanceAs (Decidable True)

instance (s : Service) (a : Service.Action) : Decidable (s.Fits a) :=
  match a with
  | .dispatch conn => inferInstanceAs (Decidable (s.FitsFrame (s.stages conn)))
  | .elect shardId | .forceSnapshot shardId | .maybeSnapshot shardId =>
      inferInstanceAs (Decidable (∀ n ∈ s.group shardId, _))
  | .call _ _ | .finish _ | .giveUp _ | .reply _ | .restart => inferInstanceAs (Decidable True)

/-- Two shards with two points each. -/
def twoShards : HashRing := ((HashRing.new 2).addShard 0).addShard 1

/-- Node 1 leads shard 0 and node 2 shard 1. -/
def twoSeeds : Nat → Option Service.Seed
  | 0 => some ⟨1, 2, []⟩
  | 1 => some ⟨2, 2, []⟩
  | _ => none

/-- A PUT frame of client 7. -/
def putFrame (key value : Bytes) (seq : Nat) : Bytes :=
  putU8 1 ++ (putBytes key ++ (putBytes value ++ (putBytes [] ++ (putU64 7 ++ putU64 seq))))

def getFrame (key : Bytes) : Bytes := putU8 0 ++ putBytes key

/-- Connection 2 reads what connection 1 is writing, the answer to the write is lost in a
restart, and its retry is answered on another connection. -/
def lostAnswer : Service :=
  replay Service.step (.start twoShards twoSeeds)
    [.elect 0, .elect 1, .call 1 (putFrame [107] [118] 1), .call 2 (getFrame [107]), .dispatch 1,
      .dispatch 2, .finish 2, .reply 2, .maybeSnapshot 0, .maybeSnapshot 1, .restart,
      .call 3 (putFrame [107] [118] 1), .elect 0, .elect 1, .dispatch 3, .finish 3, .reply 3]

theorem server_linearizable_of_lostAnswer :
    (.reply 2 (KvServer.response 0 [] [118]) ∈ lostAnswer.history ∧
        .reply 3 (KvServer.response 0 [] KvStore.resultOk) ∈ lostAnswer.history ∧
        lostAnswer.history.length = 6) ∧
      (stores twoShards).Linearizable (.start twoSeeds) lostAnswer.history := by
  have hrun : Run Service.step Service.Fits (.start twoShards twoSeeds) lostAnswer :=
    run_replay (by decide +kernel)
  refine ⟨by decide +kernel, (server_linearizable twoShards ?_ hrun).1⟩
  intro shardId seed hseed
  unfold twoSeeds at hseed
  split at hseed <;> cases hseed <;> decide

end KvRaft
