import KvRaft.RaftNode

/-!
# KvRaft.KvServer

`KvServer::dispatch`: one client request, up to the point where it has to wait
for the node (`dispatch`), and the answer once the node is there
(`finishRead`, `finishWrite`).

A response is a status byte (0 ok, 1 not found, 2 not leader, 3 CAS mismatch,
4 timeout), the address of the leader and a value.
-/

namespace KvRaft

namespace KvServer

def response (status : UInt8) (leaderHint value : Bytes) : Bytes :=
  putU8 status ++ (putBytes leaderHint ++ putBytes value)

/-- The address the node has for the leader it knows of. -/
def addrOf (n : RaftNode KvStore) : Bytes :=
  ((n.config.addresses.find? (·.1 == n.leaderId)).map (·.2)).getD []

/-- How far a request gets without waiting. -/
inductive Dispatched
  | answered (bytes : Bytes)
  /-- a GET waits until `target` is applied -/
  | reading (key : Bytes) (target : Nat)
  /-- a write waits for what it has proposed -/
  | writing (commandBytes : Bytes) (proposed : ProposeResult)
  deriving DecidableEq

/-- The rest of a PUT, DEL or CAS request. -/
def getCommand (op : UInt8) (key : Bytes) : Get KvCommand := do
  let value ← getBytes
  let expect ← getBytes
  let clientId ← getU64
  let seq ← getU64
  return ⟨if op = 1 then .put else if op = 2 then .del else .cas, key, value, expect, clientId, seq⟩

/-- `groups` is the group that serves a key, if there is one.  The result is
the node of that group after the request was taken up. -/
def dispatch (groups : Bytes → Option (RaftNode KvStore)) (frame : Bytes) :
    Except String (Option (RaftNode KvStore) × Dispatched) :=
  (do
    let op ← getU8
    let key ← getBytes
    match groups key with
    | none => return (none, .answered (response 2 [] []))
    | some n =>
        if op = 0 then
          match n.readTarget with
          | none => return (some n, .answered (response 2 (addrOf n) []))
          | some target => return (some n, .reading key target)
        else
          let cmd ← getCommand op key
          let (n, proposed) := n.propose cmd.encode .command
          if proposed.isLeader then return (some n, .writing cmd.encode proposed)
          else return (some n, .answered (response 2 (addrOf n) [])) : Get _).run' frame

/-- The answer to a GET; `none` while it has to wait. -/
def finishRead (n : RaftNode KvStore) (key : Bytes) (target : Nat) : Option Bytes :=
  if n.lastApplied ≥ target then
    match n.sm.get key with
    | some value => some (response 0 [] value)
    | none => some (response 1 [] [])
  else none

/-- The answer to a write that was applied with `result`. -/
def writeResponse (result : Bytes) : Bytes :=
  if result = KvStore.resultCasMismatch then response 3 [] [] else response 0 [] result

/-- The answer to a write; `none` while it has to wait. -/
def finishWrite (n : RaftNode KvStore) (proposed : ProposeResult) : Option Bytes :=
  (n.waitApplied proposed.index).map writeResponse

/-- A write that has to wait was proposed on a leader. -/
theorem of_dispatch_writing {groups : Bytes → Option (RaftNode KvStore)} {frame : Bytes}
    {n' : Option (RaftNode KvStore)} {commandBytes : Bytes} {proposed : ProposeResult}
    (h : dispatch groups frame = .ok (n', .writing commandBytes proposed)) :
    ∃ key n, groups key = some n ∧ n.role = .leader ∧
      n' = some (n.propose commandBytes .command).1 ∧
      proposed = (n.propose commandBytes .command).2 := by
  obtain ⟨r, h⟩ := get_run'_eq_ok.mp h
  obtain ⟨op, r₁, -, h⟩ := get_bind_eq_ok.mp h
  obtain ⟨key, r₂, -, h⟩ := get_bind_eq_ok.mp h
  cases hn : groups key with
  | none => rw [hn] at h; cases h
  | some n =>
      rw [hn] at h
      simp only at h
      split at h
      · cases htarget : n.readTarget with
        | none => rw [htarget] at h; cases h
        | some target => rw [htarget] at h; cases h
      · obtain ⟨cmd, r₃, -, h⟩ := get_bind_eq_ok.mp h
        split at h
        · next hleader =>
          cases h
          refine ⟨key, n, hn, ?_, rfl, rfl⟩
          by_contra hrole
          simp [RaftNode.propose, hrole] at hleader
        · cases h

end KvServer

end KvRaft
