import KvRaft.RaftNode
import KvRaft.Run

/-!
# KvRaft.Cluster

A cluster: its nodes and the calls and replies between them.  Handlers, reply
callbacks, elections and proposals are atomic steps.  A message may stay on
its way forever, be overtaken by others or be copied, with or without the
answer to the copy reaching a callback.  A reply whose sender has restarted in
between finds no callback.

What a run may do is said by predicates on the state and the action taken
(`FixedMembership`, `VotesOnce`, `NoSnapshots` and the like), so that each
result states its own assumptions.
-/

namespace KvRaft

structure Cluster (σ : Type) where
  /-- the ids of the processes that exist -/
  members : List NodeId
  nodes : NodeId → RaftNode σ
  calls : List Call
  /-- copies of calls whose answers reach no callback -/
  copies : List Call
  replies : List Reply

inductive Action
  /-- the election timer of a node that is not leader fires -/
  | timeout (n : NodeId)
  /-- the heartbeat timer of a node fires -/
  | heartbeat (n : NodeId)
  | propose (n : NodeId) (commandBytes : Bytes)
  | addServer (n id : NodeId) (address : Bytes)
  | removeServer (n id : NodeId)
  /-- a call of `linearizableReadBarrier` starts -/
  | readBarrier (n : NodeId)
  | forceSnapshot (n : NodeId)
  | maybeSnapshot (n : NodeId)
  /-- the call at a place of the list reaches its target -/
  | deliver (i : Nat)
  /-- the transport copies the call at a place of the list -/
  | copy (i : Nat)
  /-- the same, but the answer to the copy will be lost -/
  | copySilent (i : Nat)
  /-- a copy whose answer is lost reaches its target -/
  | redeliver (i : Nat)
  /-- the reply at a place of the list reaches its callback -/
  | reply (i : Nat)
  /-- the process crashes and is started again -/
  | restart (n : NodeId)
  deriving DecidableEq

/-- The call asks for a vote. -/
def Call.isVote (call : Call) : Bool :=
  match call.rpc with
  | .requestVote .. => true
  | _ => false

namespace Cluster

variable {σ : Type} [StateMachine σ]

/-- A cluster whose processes are started on empty directories. -/
def init (members : List NodeId) (config : ClusterConfig) (snapshotThresholdEntries : Nat) :
    Cluster σ where
  members := members
  nodes := fun n => .new n snapshotThresholdEntries config .empty 0 []
  calls := []
  copies := []
  replies := []

end Cluster

/-- How a cluster is started: one configuration for every process, with voters
that are listed once, and ids other than the `0` that stands for nobody. -/
structure Setup where
  members : List NodeId
  config : ClusterConfig
  snapshotThresholdEntries : Nat
  voters_nodup : config.voters.Nodup
  voters_ne_nil : config.voters ≠ []
  members_ne_zero : ∀ n ∈ members, n ≠ 0

def Setup.start {σ : Type} [StateMachine σ] (S : Setup) : Cluster σ :=
  .init S.members S.config S.snapshotThresholdEntries

namespace Cluster

variable {σ : Type} [StateMachine σ]

/-- Node `n` becomes `nd` and hands `sent` to the transport. -/
def put (c : Cluster σ) (n : NodeId) (nd : RaftNode σ) (sent : List Call) : Cluster σ :=
  { c with nodes := Function.update c.nodes n nd, calls := c.calls ++ sent }

omit [StateMachine σ] in
@[simp] theorem put_nodes_self (c : Cluster σ) (n : NodeId) (nd : RaftNode σ) (sent : List Call) :
    (c.put n nd sent).nodes n = nd := by
  simp only [put, Function.update_self]

omit [StateMachine σ] in
theorem put_nodes_of_ne {b n : NodeId} (h : b ≠ n) (c : Cluster σ) (nd : RaftNode σ)
    (sent : List Call) : (c.put n nd sent).nodes b = c.nodes b := by
  simp only [put, Function.update_of_ne h]

/-- The target of `call` handles it, and `rest` is still on its way. -/
def receive (c : Cluster σ) (call : Call) (rest : List Call) : Cluster σ :=
  let (nd, answer) := (c.nodes call.target).handle call.rpc
  { c with
    nodes := Function.update c.nodes call.target nd
    calls := rest
    replies := c.replies ++ [⟨call.sender, call.target, call.incarnation, answer⟩] }

def copyCall (c : Cluster σ) (call : Call) : Cluster σ := { c with calls := c.calls ++ [call] }

def copySilently (c : Cluster σ) (call : Call) : Cluster σ :=
  { c with copies := c.copies ++ [call] }

/-- The target of `call` handles it, and its answer is lost. -/
def rehandle (c : Cluster σ) (call : Call) : Cluster σ :=
  { c with nodes :=
      Function.update c.nodes call.target ((c.nodes call.target).handle call.rpc).1 }

/-- A step of one node on its own: its state after and the calls it sends. -/
def ownStep (c : Cluster σ) : Action → Option (NodeId × RaftNode σ × List Call)
  | .timeout n =>
      if (c.nodes n).role = .leader then none else some (n, (c.nodes n).becomeCandidate)
  | .heartbeat n => some (n, c.nodes n, (c.nodes n).broadcastAppendEntries)
  | .propose n commandBytes => some (n, ((c.nodes n).propose commandBytes .command).1, [])
  | .addServer n id address => some (n, ((c.nodes n).addServer id address).1, [])
  | .removeServer n id => some (n, ((c.nodes n).removeServer id).1, [])
  | .readBarrier n => some (n, c.nodes n, (c.nodes n).broadcastAppendEntries)
  | .forceSnapshot n => some (n, (c.nodes n).forceSnapshot, [])
  | .maybeSnapshot n => some (n, (c.nodes n).maybeSnapshot, [])
  | .restart n => some (n, (c.nodes n).restart, [])
  | .deliver _ | .copy _ | .copySilent _ | .redeliver _ | .reply _ => none

def step (c : Cluster σ) : Action → Option (Cluster σ)
  | .deliver i => do
      let call ← c.calls[i]?
      if call.target ∈ c.members then c.receive call (c.calls.eraseIdx i) else none
  | .copy i => c.calls[i]?.map c.copyCall
  | .copySilent i => c.calls[i]?.map c.copySilently
  | .redeliver i => do
      let call ← c.copies[i]?
      if call.target ∈ c.members then c.rehandle call else none
  | .reply i => do
      let r ← c.replies[i]?
      -- the callback is gone with the process that made the call
      if r.sender ∈ c.members ∧ (c.nodes r.sender).incarnation = r.incarnation then
        let (nd, sent) := (c.nodes r.sender).callback r.target r.answer
        some { c.put r.sender nd sent with replies := c.replies.eraseIdx i }
      else none
  | a => do
      let (n, nd, sent) ← c.ownStep a
      if n ∈ c.members then c.put n nd sent else none

/-- Everything a node does on its own. -/
theorem ownStep_cases {c : Cluster σ} {a : Action} {n : NodeId} {nd : RaftNode σ}
    {sent : List Call} (h : c.ownStep a = some (n, nd, sent)) :
    (a = .restart n ∧ nd = (c.nodes n).restart ∧ sent = []) ∨
    (a = .timeout n ∧ (c.nodes n).role ≠ .leader ∧ nd = (c.nodes n).becomeCandidate.1 ∧
      sent = (c.nodes n).becomeCandidate.2) ∨
    (nd = c.nodes n ∧ sent = (c.nodes n).broadcastAppendEntries) ∨
    (∃ data type, nd = ((c.nodes n).propose data type).1 ∧ sent = []) ∨
    (nd = (c.nodes n).forceSnapshot ∧ sent = []) ∨
    (nd = (c.nodes n).maybeSnapshot ∧ sent = []) := by
  cases a with
  | restart =>
      cases h
      exact .inl ⟨rfl, rfl, rfl⟩
  | timeout =>
      obtain ⟨hrole, h⟩ := Option.ite_none_left_eq_some.mp h
      obtain ⟨rfl, hout⟩ := Prod.mk.inj (Option.some.inj h)
      exact .inr (.inl ⟨rfl, hrole, by rw [hout], by rw [hout]⟩)
  | heartbeat | readBarrier =>
      cases h
      exact .inr (.inr (.inl ⟨rfl, rfl⟩))
  -- addServer and removeServer propose a configuration
  | propose | addServer | removeServer =>
      cases h
      exact .inr (.inr (.inr (.inl ⟨_, _, rfl, rfl⟩)))
  | forceSnapshot =>
      cases h
      exact .inr (.inr (.inr (.inr (.inl ⟨rfl, rfl⟩))))
  | maybeSnapshot =>
      cases h
      exact .inr (.inr (.inr (.inr (.inr ⟨rfl, rfl⟩))))
  | deliver | copy | copySilent | redeliver | reply => cases h

/-- The call an action delivers. -/
def delivered (c : Cluster σ) : Action → Option Call
  | .deliver i => c.calls[i]?
  | .redeliver i => c.copies[i]?
  | _ => none

/-- Everything a step can do. -/
theorem step_cases {c c' : Cluster σ} {a : Action} (h : c.step a = some c') :
    (∃ n nd sent, c.ownStep a = some (n, nd, sent) ∧ n ∈ c.members ∧ c' = c.put n nd sent) ∨
    (∃ i call, a = .deliver i ∧ c.calls[i]? = some call ∧ call.target ∈ c.members ∧
      c' = c.receive call (c.calls.eraseIdx i)) ∨
    (∃ i call, a = .copy i ∧ c.calls[i]? = some call ∧ c' = c.copyCall call) ∨
    (∃ i call, a = .copySilent i ∧ c.calls[i]? = some call ∧ c' = c.copySilently call) ∨
    (∃ i call, a = .redeliver i ∧ c.copies[i]? = some call ∧ call.target ∈ c.members ∧
      c' = c.rehandle call) ∨
    (∃ i r, a = .reply i ∧ c.replies[i]? = some r ∧ r.sender ∈ c.members ∧
      (c.nodes r.sender).incarnation = r.incarnation ∧
      c' = { c.put r.sender ((c.nodes r.sender).callback r.target r.answer).1
        ((c.nodes r.sender).callback r.target r.answer).2 with
          replies := c.replies.eraseIdx i }) := by
  have hown : (do let (n, nd, sent) ← c.ownStep a
                  if n ∈ c.members then some (c.put n nd sent) else none) = some c' →
      ∃ n nd sent, c.ownStep a = some (n, nd, sent) ∧ n ∈ c.members ∧ c' = c.put n nd sent := by
    intro h
    obtain ⟨⟨n, nd, sent⟩, ho, h⟩ := Option.bind_eq_some_iff.mp h
    simp only [Option.ite_none_right_eq_some, Option.some.injEq] at h
    exact ⟨n, nd, sent, ho, h.1, h.2.symm⟩
  -- what the network does to a message names that message
  cases a with
  | deliver i =>
      obtain ⟨call, hcall, h⟩ := Option.bind_eq_some_iff.mp h
      simp only [Option.ite_none_right_eq_some, Option.some.injEq] at h
      exact .inr (.inl ⟨i, call, rfl, hcall, h.1, h.2.symm⟩)
  | copy i =>
      obtain ⟨call, hcall, h⟩ := Option.map_eq_some_iff.mp h
      exact .inr (.inr (.inl ⟨i, call, rfl, hcall, h.symm⟩))
  | copySilent i =>
      obtain ⟨call, hcall, h⟩ := Option.map_eq_some_iff.mp h
      exact .inr (.inr (.inr (.inl ⟨i, call, rfl, hcall, h.symm⟩)))
  | redeliver i =>
      obtain ⟨call, hcall, h⟩ := Option.bind_eq_some_iff.mp h
      simp only [Option.ite_none_right_eq_some, Option.some.injEq] at h
      exact .inr (.inr (.inr (.inr (.inl ⟨i, call, rfl, hcall, h.1, h.2.symm⟩))))
  | reply i =>
      obtain ⟨r, hr, h⟩ := Option.bind_eq_some_iff.mp h
      simp only [Option.ite_none_right_eq_some, Option.some.injEq] at h
      exact .inr (.inr (.inr (.inr (.inr ⟨i, r, rfl, hr, h.1.1, h.1.2, h.2.symm⟩))))
  | _ => exact .inl (hown h)

theorem step_members {c c' : Cluster σ} {a : Action} (h : c.step a = some c') :
    c'.members = c.members := by
  obtain ⟨_, _, _, -, -, rfl⟩ | ⟨_, _, -, -, -, rfl⟩ | ⟨_, _, -, -, rfl⟩ | ⟨_, _, -, -, rfl⟩ |
    ⟨_, _, -, -, -, rfl⟩ | ⟨_, _, -, -, -, -, rfl⟩ := step_cases h
  all_goals rfl

/-- Everything a step can do to one node. -/
theorem step_node {c c' : Cluster σ} {a : Action} (h : c.step a = some c') (b : NodeId) :
    c'.nodes b = c.nodes b ∨
    (∃ sent, c.ownStep a = some (b, c'.nodes b, sent)) ∨
    (∃ call, c.delivered a = some call ∧ call.target = b ∧
      c'.nodes b = ((c.nodes b).handle call.rpc).1) ∨
    (∃ i r, a = .reply i ∧ c.replies[i]? = some r ∧ r.sender = b ∧
      c'.nodes b = ((c.nodes b).callback r.target r.answer).1) := by
  have hother : ∀ n nd, b ≠ n → Function.update c.nodes n nd b = c.nodes b :=
    fun n nd hb => Function.update_of_ne hb nd c.nodes
  obtain ⟨n, nd, sent, hown, -, rfl⟩ | ⟨i, call, rfl, hcall, -, rfl⟩ | ⟨_, call, rfl, -, rfl⟩ |
    ⟨_, call, rfl, -, rfl⟩ | ⟨i, call, rfl, hcall, -, rfl⟩ | ⟨i, r, rfl, hr, -, -, rfl⟩ :=
    step_cases h
  · -- an own step changes its node alone
    by_cases hb : b = n
    · subst hb
      have hself : (c.put b nd sent).nodes b = nd := by simp only [put, Function.update_self]
      exact .inr (.inl ⟨sent, by rw [hself, hown]⟩)
    · exact .inl (hother n nd hb)
  · -- a delivery changes its target, a copy nobody
    by_cases hb : b = call.target
    · subst hb
      exact .inr (.inr (.inl ⟨call, hcall, rfl, Function.update_self call.target _ c.nodes⟩))
    · exact .inl (hother _ _ hb)
  · exact .inl rfl
  · exact .inl rfl
  · by_cases hb : b = call.target
    · subst hb
      exact .inr (.inr (.inl ⟨call, hcall, rfl, Function.update_self call.target _ c.nodes⟩))
    · exact .inl (hother _ _ hb)
  · -- a reply changes the node that asked
    by_cases hb : b = r.sender
    · subst hb
      exact .inr (.inr (.inr ⟨i, r, rfl, hr, rfl, Function.update_self r.sender _ c.nodes⟩))
    · exact .inl (hother _ _ hb)

/-- The node of a step it takes on its own. -/
theorem step_ownStep {c c' : Cluster σ} {a : Action} {n : NodeId} {nd : RaftNode σ}
    {sent : List Call}
    (h : c.step a = some c') (hown : c.ownStep a = some (n, nd, sent)) : c'.nodes n = nd := by
  obtain ⟨n', nd', sent', hown', -, rfl⟩ | ⟨_, _, rfl, _⟩ | ⟨_, _, rfl, _⟩ | ⟨_, _, rfl, _⟩ |
    ⟨_, _, rfl, _⟩ | ⟨_, _, rfl, _⟩ := step_cases h
  · cases hown'.symm.trans hown
    exact Function.update_self _ _ _
  all_goals cases hown

/-- The target of a delivered call handles it. -/
theorem step_delivered {c c' : Cluster σ} {a : Action} (h : c.step a = some c') {call : Call}
    (hcall : c.delivered a = some call) :
    c'.nodes call.target = ((c.nodes call.target).handle call.rpc).1 := by
  obtain ⟨n, nd, sent, hown, -, rfl⟩ | ⟨i, x, rfl, hx, -, rfl⟩ | ⟨_, x, rfl, -, rfl⟩ |
    ⟨_, x, rfl, -, rfl⟩ | ⟨i, x, rfl, hx, -, rfl⟩ | ⟨i, r, rfl, -, -, -, rfl⟩ := step_cases h
  · cases a <;> contradiction
  · obtain rfl : x = call := Option.some.inj (hx.symm.trans hcall)
    exact Function.update_self x.target _ c.nodes
  · contradiction
  · contradiction
  · obtain rfl : x = call := Option.some.inj (hx.symm.trans hcall)
    exact Function.update_self x.target _ c.nodes
  · contradiction

/-- The sender of the call takes a reply. -/
theorem step_reply {c c' : Cluster σ} {i : Nat} {r : Reply} (h : c.step (.reply i) = some c')
    (hr : c.replies[i]? = some r) :
    c'.nodes r.sender = ((c.nodes r.sender).callback r.target r.answer).1 := by
  obtain ⟨n, nd, sent, hown, -, rfl⟩ | ⟨_, _, ha, _⟩ | ⟨_, _, ha, _⟩ | ⟨_, _, ha, _⟩ |
    ⟨_, _, ha, _⟩ | ⟨j, x, ha, hx, -, -, rfl⟩ := step_cases h
  · cases hown
  · cases ha
  · cases ha
  · cases ha
  · cases ha
  · cases ha
    cases hx.symm.trans hr
    exact Function.update_self r.sender _ c.nodes

end Cluster

/-! ## What a run may do -/

/-- The action proposes a configuration. -/
def Action.changesMembership : Action → Bool
  | .addServer .. | .removeServer .. => true
  | _ => false

/-- The action may take a snapshot. -/
def Action.takesSnapshot : Action → Bool
  | .forceSnapshot _ | .maybeSnapshot _ => true
  | _ => false

namespace Cluster

variable {σ : Type}

/-- The action copies a request for a vote, whose callback may then run twice. -/
def repeatsVote (c : Cluster σ) : Action → Bool
  | .copy i => c.calls[i]?.any Call.isVote
  | _ => false

/-- The callback of a request for a vote runs at most once. -/
def VotesOnce (c : Cluster σ) (a : Action) : Prop :=
  c.repeatsVote a = false

/-- No configuration is proposed. -/
def FixedMembership (_ : Cluster σ) (a : Action) : Prop :=
  a.changesMembership = false

/-- The configuration stays as it is, and no vote is counted twice for being
copied. -/
def Steady (c : Cluster σ) (a : Action) : Prop :=
  c.FixedMembership a ∧ c.VotesOnce a

/-- No snapshot is taken, and so none is ever sent. -/
def NoSnapshots (_ : Cluster σ) (a : Action) : Prop :=
  a.takesSnapshot = false

instance (c : Cluster σ) (a : Action) : Decidable (c.VotesOnce a) :=
  inferInstanceAs (Decidable (_ = _))

instance (c : Cluster σ) (a : Action) : Decidable (c.FixedMembership a) :=
  inferInstanceAs (Decidable (_ = _))

instance (c : Cluster σ) (a : Action) : Decidable (c.Steady a) :=
  inferInstanceAs (Decidable (_ ∧ _))

instance (c : Cluster σ) (a : Action) : Decidable (c.NoSnapshots a) :=
  inferInstanceAs (Decidable (_ = _))

end Cluster

end KvRaft
