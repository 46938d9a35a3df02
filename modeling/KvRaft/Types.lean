import KvRaft.Buffer

/-!
# KvRaft.Types

The types of `raft/types.h` with their binary form: log entries, cluster
configurations and commands of the key-value store.

Ids, terms and indices are natural numbers; the widths of the source's
`uint32_t` and `uint64_t` show where a value is written to a buffer.  An
enumeration read from a byte keeps a value outside its list, as the cast in
the source does (`EntryType.other`, `CmdOp.other`).
-/

namespace KvRaft

abbrev NodeId := Nat

/-! ## Log entries -/

inductive EntryType
  | command
  | config
  | noOp
  | other (raw : { b : UInt8 // 3 ≤ b })
  deriving DecidableEq

namespace EntryType

def toU8 : EntryType → UInt8
  | command => 0
  | config => 1
  | noOp => 2
  | other raw => raw.1

def ofU8 (b : UInt8) : EntryType :=
  if h : 3 ≤ b then .other ⟨b, h⟩
  else if b = 0 then .command
  else if b = 1 then .config
  else .noOp

@[simp] theorem ofU8_toU8 (t : EntryType) : ofU8 t.toU8 = t := by
  cases t with
  | other raw => exact dif_pos raw.2
  | _ => rfl

@[simp] theorem toU8_ofU8 (b : UInt8) : (ofU8 b).toU8 = b := by
  unfold ofU8
  split
  · rfl
  · split
    · exact Eq.symm ‹b = 0›
    · split
      · exact Eq.symm ‹b = 1›
      · -- what is below 3 and neither 0 nor 1
        apply UInt8.toNat_inj.mp
        have hlt : b.toNat < 3 := Nat.lt_of_not_le ‹¬ 3 ≤ b›
        have h0 : b.toNat ≠ 0 := fun h => ‹¬ b = 0› (UInt8.toNat_inj.mp h)
        have h1 : b.toNat ≠ 1 := fun h => ‹¬ b = 1› (UInt8.toNat_inj.mp h)
        change 2 = b.toNat
        omega

end EntryType

structure LogEntry where
  term : Nat
  index : Nat
  type : EntryType
  data : Bytes
  deriving DecidableEq

namespace LogEntry

def encode (e : LogEntry) : Bytes :=
  putU64 e.term ++ (putU64 e.index ++ (putU8 e.type.toU8 ++ putBytes e.data))

def decode : Get LogEntry := do
  let term ← getU64
  let index ← getU64
  let type ← getU8
  let data ← getBytes
  return ⟨term, index, .ofU8 type, data⟩

/-- The entry's fields fit the source's integer types and its data has a
32-bit length. -/
structure Fits (e : LogEntry) : Prop where
  term : e.term < 2 ^ 64
  index : e.index < 2 ^ 64
  data : e.data.length < 2 ^ 32

instance (e : LogEntry) : Decidable e.Fits :=
  decidable_of_iff (e.term < 2 ^ 64 ∧ e.index < 2 ^ 64 ∧ e.data.length < 2 ^ 32)
    ⟨fun h => ⟨h.1, h.2.1, h.2.2⟩, fun h => ⟨h.term, h.index, h.data⟩⟩

theorem decodes {e : LogEntry} (h : e.Fits) : Decodes decode e.encode e := by
  refine (Decodes.u64 h.term).bind ((Decodes.u64 h.index).bind ((Decodes.u8 _).bind ?_))
  simpa using (Decodes.bytes h.data).map (LogEntry.mk e.term e.index (.ofU8 e.type.toU8))

/-- What is read as an entry are the bytes of that entry. -/
theorem consumes : Consumes decode encode := by
  intro r e r' h
  obtain ⟨term, r₁, hterm, h⟩ := get_bind_eq_ok.mp h
  obtain ⟨index, r₂, hindex, h⟩ := get_bind_eq_ok.mp h
  obtain ⟨type, r₃, htype, h⟩ := get_bind_eq_ok.mp h
  obtain ⟨data, r₄, hdata, h⟩ := get_bind_eq_ok.mp h
  cases h
  rw [Consumes.u64 _ _ _ hterm, Consumes.u64 _ _ _ hindex, Consumes.u8 _ _ _ htype,
    Consumes.bytes _ _ _ hdata]
  simp [encode]

/-- What is read as an entry fits. -/
theorem fits_of_decode {r r' : Bytes} {e : LogEntry} (h : decode r = .ok (e, r')) : e.Fits := by
  obtain ⟨term, r₁, hterm, h⟩ := get_bind_eq_ok.mp h
  obtain ⟨index, r₂, hindex, h⟩ := get_bind_eq_ok.mp h
  obtain ⟨type, r₃, -, h⟩ := get_bind_eq_ok.mp h
  obtain ⟨data, r₄, hdata, h⟩ := get_bind_eq_ok.mp h
  cases h
  exact ⟨getU64_lt hterm, getU64_lt hindex, getBytes_length hdata⟩

theorem encode_ne_nil (e : LogEntry) : e.encode ≠ [] := by
  simp [encode, putU64, putLE]

end LogEntry

/-! ## Cluster configurations -/

structure ClusterConfig where
  voters : List NodeId
  addresses : List (NodeId × Bytes)
  deriving DecidableEq

namespace ClusterConfig

def encode (c : ClusterConfig) : Bytes :=
  putU32 c.voters.length ++ (c.voters.flatMap putU64 ++
    (putU32 c.addresses.length ++ c.addresses.flatMap fun p => putU64 p.1 ++ putBytes p.2))

/-- A node id is written with 64 bits and cut to 32 when read. -/
def getNodeId : Get NodeId := do return (← getU64) % 2 ^ 32

def decode : Get ClusterConfig := do
  let n ← getU32
  let voters ← getMany getNodeId n
  let m ← getU32
  let addresses ← getMany (do
    let id ← getNodeId
    let addr ← getBytes
    return (id, addr)) m
  return ⟨voters, addresses⟩

def hasVoter (c : ClusterConfig) (id : NodeId) : Bool := c.voters.any (· == id)

@[simp] theorem hasVoter_iff {c : ClusterConfig} {id : NodeId} :
    c.hasVoter id = true ↔ id ∈ c.voters := by
  simp [hasVoter]

/-- The ids fit 32 bits, and so do the lengths. -/
structure Fits (c : ClusterConfig) : Prop where
  voters : ∀ v ∈ c.voters, v < 2 ^ 32
  voters_length : c.voters.length < 2 ^ 32
  addresses : ∀ p ∈ c.addresses, p.1 < 2 ^ 32 ∧ p.2.length < 2 ^ 32
  addresses_length : c.addresses.length < 2 ^ 32

instance (c : ClusterConfig) : Decidable c.Fits :=
  decidable_of_iff ((∀ v ∈ c.voters, v < 2 ^ 32) ∧ c.voters.length < 2 ^ 32 ∧
      (∀ p ∈ c.addresses, p.1 < 2 ^ 32 ∧ p.2.length < 2 ^ 32) ∧ c.addresses.length < 2 ^ 32)
    ⟨fun ⟨hv, hvl, ha, hal⟩ => ⟨hv, hvl, ha, hal⟩,
      fun h => ⟨h.voters, h.voters_length, h.addresses, h.addresses_length⟩⟩

theorem decodes_nodeId {id : NodeId} (h : id < 2 ^ 32) : Decodes getNodeId (putU64 id) id := by
  have hlt : id < 2 ^ 64 := Nat.lt_of_lt_of_le h (by decide)
  have hdecodes : Decodes getNodeId (putU64 id) (id % 2 ^ 32) := (Decodes.u64 hlt).map (· % 2 ^ 32)
  rwa [Nat.mod_eq_of_lt h] at hdecodes

/-- A configuration is read back as it was written. -/
theorem decodes {c : ClusterConfig} (h : c.Fits) : Decodes decode c.encode c := by
  have hvoters : Decodes (getMany getNodeId c.voters.length) (c.voters.flatMap putU64) c.voters :=
    .many _ _ fun v hv => decodes_nodeId (h.voters v hv)
  have haddresses : Decodes (getMany (do
      let id ← getNodeId; let addr ← getBytes; return (id, addr)) c.addresses.length)
      (c.addresses.flatMap fun p => putU64 p.1 ++ putBytes p.2) c.addresses :=
    .many _ _ fun p hp => (decodes_nodeId (h.addresses p hp).1).bind
      ((Decodes.bytes (h.addresses p hp).2).map (Prod.mk p.1))
  exact (Decodes.u32 h.voters_length).bind (hvoters.bind ((Decodes.u32 h.addresses_length).bind
    (haddresses.map (ClusterConfig.mk c.voters))))

end ClusterConfig

/-! ## Commands of the key-value store -/

inductive CmdOp
  | put
  | del
  | cas
  | other (raw : { b : UInt8 // 3 ≤ b })
  deriving DecidableEq

namespace CmdOp

def toU8 : CmdOp → UInt8
  | put => 0
  | del => 1
  | cas => 2
  | other raw => raw.1

def ofU8 (b : UInt8) : CmdOp :=
  if h : 3 ≤ b then .other ⟨b, h⟩
  else if b = 0 then .put
  else if b = 1 then .del
  else .cas

@[simp] theorem ofU8_toU8 (op : CmdOp) : ofU8 op.toU8 = op := by
  cases op with
  | other raw => exact dif_pos raw.2
  | _ => rfl

end CmdOp

structure KvCommand where
  op : CmdOp
  key : Bytes
  value : Bytes
  /-- for CAS -/
  expect : Bytes
  clientId : Nat
  requestSeq : Nat
  deriving DecidableEq

namespace KvCommand

def encode (c : KvCommand) : Bytes :=
  putU8 c.op.toU8 ++ (putBytes c.key ++ (putBytes c.value ++ (putBytes c.expect ++
    (putU64 c.clientId ++ putU64 c.requestSeq))))

/-- The reads of `decode`, on a reader that may hold more. -/
def reader : Get KvCommand := do
  let op ← getU8
  let key ← getBytes
  let value ← getBytes
  let expect ← getBytes
  let clientId ← getU64
  let requestSeq ← getU64
  return ⟨.ofU8 op, key, value, expect, clientId, requestSeq⟩

def decode (s : Bytes) : Except String KvCommand := reader.run' s

end KvCommand

end KvRaft
