import KvRaft.Types
import Mathlib.Data.List.AList

/-!
# KvRaft.KvStore

The state machine interface of `raft/state_machine.h` and the key-value store
of `kv/kv_store.h`: put, delete and compare-and-swap, with requests of a client
recognised by their sequence number.

An `unordered_map` is an `AList`; the order of its entries stands for the
iteration order, which the source does not fix.
-/

namespace KvRaft

/-- `StateMachine`: what a node applies committed commands to. -/
class StateMachine (σ : Type) where
  /-- a newly built machine -/
  fresh : σ
  /-- the machine and the result after a command at a log index -/
  apply : σ → Bytes → Nat → σ × Bytes
  snapshot : σ → Bytes
  restore : σ → Bytes → σ

/-- ASCII text as bytes. -/
def ascii (cs : List Char) : Bytes := cs.map fun c => UInt8.ofNat c.toNat

structure KvStore where
  data : AList fun _ : Bytes => Bytes
  /-- last sequence number of a client and the result of that request -/
  lastSeq : AList fun _ : Nat => Nat × Bytes

-- the entries decide; the equality test of `AList` does not reduce in the kernel
instance : DecidableEq KvStore := fun s t =>
  decidable_of_iff (s.data.entries = t.data.entries ∧ s.lastSeq.entries = t.lastSeq.entries) <| by
    obtain ⟨data, lastSeq⟩ := s
    obtain ⟨data', lastSeq'⟩ := t
    rw [← AList.ext_iff, ← AList.ext_iff, KvStore.mk.injEq]

namespace KvStore

def empty : KvStore := ⟨∅, ∅⟩

def resultOk : Bytes := ascii ['O', 'K']

def resultCasMismatch : Bytes :=
  ascii ['C', 'A', 'S', '_', 'M', 'I', 'S', 'M', 'A', 'T', 'C', 'H']

/-- The `switch` of `apply`: the new data and the result. -/
def execute (data : AList fun _ : Bytes => Bytes) (cmd : KvCommand) :
    (AList fun _ : Bytes => Bytes) × Bytes :=
  match cmd.op with
  | .put => (data.insert cmd.key cmd.value, resultOk)
  | .del => (data.erase cmd.key, resultOk)
  | .cas =>
      let cur := (data.lookup cmd.key).getD []
      if cur = cmd.expect then (data.insert cmd.key cmd.value, resultOk)
      else (data, resultCasMismatch)
  | .other _ => (data, [])

/-- The result a client's earlier request left behind, if it covers this one. -/
def cached (s : KvStore) (cmd : KvCommand) : Option Bytes :=
  if cmd.clientId = 0 then none
  else match s.lastSeq.lookup cmd.clientId with
    | some (seq, result) => if seq ≥ cmd.requestSeq then some result else none
    | none => none

def applyCommand (s : KvStore) (cmd : KvCommand) : KvStore × Bytes :=
  match s.cached cmd with
  | some result => (s, result)
  | none =>
      let (data, result) := execute s.data cmd
      let lastSeq := if cmd.clientId = 0 then s.lastSeq
        else s.lastSeq.insert cmd.clientId (cmd.requestSeq, result)
      (⟨data, lastSeq⟩, result)

/-- What commands make of a store. -/
def after (s : KvStore) (cmds : List KvCommand) : KvStore :=
  cmds.foldl (fun s cmd => (s.applyCommand cmd).1) s

@[simp] theorem after_nil (s : KvStore) : s.after [] = s := rfl

@[simp] theorem after_cons (s : KvStore) (cmd : KvCommand) (cmds : List KvCommand) :
    s.after (cmd :: cmds) = (s.applyCommand cmd).1.after cmds := rfl

theorem after_append (s : KvStore) (cmds cmds' : List KvCommand) :
    s.after (cmds ++ cmds') = (s.after cmds).after cmds' := List.foldl_append

/-- The results of commands that are applied one after the other. -/
def results (s : KvStore) : List KvCommand → List Bytes
  | [] => []
  | cmd :: cmds => (s.applyCommand cmd).2 :: results (s.applyCommand cmd).1 cmds

/-- What commands make of an empty store. -/
def ofCommands (cmds : List KvCommand) : KvStore := empty.after cmds

theorem ofCommands_concat (cmds : List KvCommand) (cmd : KvCommand) :
    ofCommands (cmds ++ [cmd]) = ((ofCommands cmds).applyCommand cmd).1 :=
  after_append empty cmds [cmd]

def apply (s : KvStore) (commandBytes : Bytes) (_logIndex : Nat) :
    Except String (KvStore × Bytes) := do
  let cmd ← KvCommand.decode commandBytes
  return s.applyCommand cmd

def get (s : KvStore) (key : Bytes) : Option Bytes := s.data.lookup key

def snapshot (s : KvStore) : Bytes :=
  putU32 s.data.entries.length ++
    (s.data.entries.flatMap (fun p => putBytes p.1 ++ putBytes p.2) ++
      (putU32 s.lastSeq.entries.length ++
        s.lastSeq.entries.flatMap fun p => putU64 p.1 ++ (putU64 p.2.1 ++ putBytes p.2.2)))

/-- What `restore` reads from a non-empty snapshot. -/
def getSnapshot : Get KvStore := do
  let n ← getU32
  let data ← getMany (do
    let k ← getBytes
    let v ← getBytes
    return (k, v)) n
  let m ← getU32
  let lastSeq ← getMany (do
    let cid ← getU64
    let seq ← getU64
    let res ← getBytes
    return (cid, seq, res)) m
  -- a key that comes twice keeps its last value
  return ⟨data.foldl (fun d p => d.insert p.1 p.2) ∅,
    lastSeq.foldl (fun d p => d.insert p.1 p.2) ∅⟩

def restore (snapshotBytes : Bytes) : Except String KvStore :=
  if snapshotBytes = [] then .ok empty else getSnapshot.run' snapshotBytes

end KvStore

/-- The store as a state machine.  Where `apply` or `restore` throws, the
source ends the process; nothing proposes such a command, and here it changes
nothing. -/
instance : StateMachine KvStore where
  fresh := .empty
  apply s commandBytes logIndex := match s.apply commandBytes logIndex with
    | .ok r => r
    | .error _ => (s, [])
  snapshot := KvStore.snapshot
  restore s snapshotBytes := match KvStore.restore snapshotBytes with
    | .ok s' => s'
    | .error _ => s

end KvRaft
