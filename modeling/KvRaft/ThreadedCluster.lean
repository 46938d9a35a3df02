import KvRaft.ThreadEffect

/-!
# KvRaft.ThreadedCluster

A cluster whose nodes run any number of threads.  Where `Cluster` takes a whole
handler as one step, here a step is one stretch of one thread of one node.  A
request enters a node only if some node has sent it, and a reply only if it
answers a call of this life of the node; what was sent may arrive at any time,
several times or never.

* `node_run` — each node goes through a run of its own, so that what is known of
  one node and its threads is known of all;
* `holds_of_run` — what is true of every entry that is proposed is true of every
  entry that is stored, about to be applied or on its way.
-/

namespace KvRaft

open Pool

/-- The request that is answered. -/
def Answer.rpc : Answer → Rpc
  | requestVote req majority _ => .requestVote req majority
  | appendEntries req _ => .appendEntries req
  | installSnapshot req _ => .installSnapshot req

/-- The output hands the request to the transport, for node `n`. -/
def Output.requests (n : NodeId) (rpc : Rpc) : Output → Bool
  | call c => c.target = n ∧ c.rpc = rpc
  | _ => false

structure ThreadedCluster (σ : Type) where
  /-- the ids of the processes that exist -/
  members : List NodeId
  nodes : NodeId → Threads σ

namespace ThreadedCluster

variable {σ : Type}

/-- What may enter node `n`: requests and replies come from other nodes, the
rest from timers and clients. -/
def Arrives (c : ThreadedCluster σ) (n : NodeId) : Threads.Action → Prop
  | .start (.rpc rpc) => ∃ m ∈ c.members, ∃ o ∈ (c.nodes m).out, o.requests n rpc = true
  | .start (.reply peer answer) => peer ∈ c.members ∧ .answer answer ∈ (c.nodes peer).out ∧
      .call ⟨n, peer, (c.nodes n).node.incarnation, answer.rpc⟩ ∈ (c.nodes n).out
  | _ => True

instance (c : ThreadedCluster σ) (n : NodeId) (a : Threads.Action) : Decidable (c.Arrives n a) := by
  cases a with
  | start entry =>
      cases entry with
      | rpc => exact inferInstanceAs (Decidable (∃ m ∈ _, ∃ o ∈ _, _))
      | reply => exact inferInstanceAs (Decidable (_ ∧ _ ∧ _))
      | _ => exact instDecidableTrue
  | _ => exact instDecidableTrue

variable [StateMachine σ]

/-- A cluster whose processes are started on empty directories. -/
def init (members : List NodeId) (config : ClusterConfig) (snapshotThresholdEntries : Nat) :
    ThreadedCluster σ where
  members := members
  nodes := fun n => .init n snapshotThresholdEntries config

/-- Node `n` does `a`. -/
def step (c : ThreadedCluster σ) : NodeId × Threads.Action → Option (ThreadedCluster σ)
  | (n, a) =>
      if n ∈ c.members ∧ c.Arrives n a then
        ((c.nodes n).step a).map fun s => { c with nodes := Function.update c.nodes n s }
      else none

variable {c c' : ThreadedCluster σ} {n : NodeId} {a : Threads.Action}

/-- Everything a step can do. -/
theorem step_cases (h : c.step (n, a) = some c') :
    n ∈ c.members ∧ c.Arrives n a ∧ c'.members = c.members ∧
      (c.nodes n).step a = some (c'.nodes n) ∧ ∀ b, b ≠ n → c'.nodes b = c.nodes b := by
  obtain ⟨⟨hmem, harrives⟩, h⟩ := Option.ite_none_right_eq_some.mp h
  obtain ⟨s, hstep, rfl⟩ := Option.map_eq_some_iff.mp h
  refine ⟨hmem, harrives, rfl, ?_, fun b hb => Function.update_of_ne hb s c.nodes⟩
  rw [hstep]
  exact congrArg some (Function.update_self n s c.nodes).symm

/-- **Each node goes through a run of its own**, under whatever condition the
steps of the cluster meet at the node that takes them. -/
theorem node_run {ok : Threads σ → Threads.Action → Prop} {init : ThreadedCluster σ}
    (hrun : Run step (fun c a => ok (c.nodes a.1) a.2) init c) (b : NodeId) :
    Run Threads.step ok (init.nodes b) (c.nodes b) := by
  induction hrun with
  | refl => exact .refl _
  | @snoc c c' x _ hok hstep ih =>
      obtain ⟨n, a⟩ := x
      obtain ⟨-, -, -, hnode, hothers⟩ := step_cases hstep
      by_cases hb : b = n
      · subst hb
        exact .snoc ih hok hnode
      · rw [hothers b hb]
        exact ih

end ThreadedCluster

/-! ## Where entries come from -/

variable {σ : Type} [StateMachine σ]

/-- `Proposes n k e`: the stretch `k` puts the new entry `e` into the log of the
leader `n`. -/
inductive Stretch.Proposes (n : RaftNode σ) : Stretch → LogEntry → Prop
  | plain (data : Bytes) (type : EntryType) (hrole : n.role = .leader) :
      Proposes n (.propose data type) (n.newEntry data type)
  | change (change : Change) (seen : ClusterConfig) (hrole : n.role = .leader) :
      Proposes n (.proposeChange change seen) (n.newEntry (change.apply seen).encode .config)

section Holds

variable (P : LogEntry → Prop)

/-- Every entry that the stretch carries satisfies `P`. -/
def Stretch.Holds : Stretch → Prop
  | applyLoop toApply => ∀ e ∈ toApply, P e
  | handleAppendEntries req | acceptEntries req => ∀ e ∈ req.entries, P e
  | _ => True

/-- Every entry that is sent satisfies `P`. -/
def Output.Holds : Output → Prop
  | call ⟨_, _, _, .appendEntries req⟩ => ∀ e ∈ req.entries, P e
  | _ => True

/-- Every entry that the node stores, that a thread carries or that was sent
satisfies `P`. -/
structure Threads.Holds (s : Threads σ) : Prop where
  synced : s.node.log.Synced
  log : ∀ e ∈ s.node.log.entries, P e
  pending : Every (Stretch.Holds P) s.threads
  sent : ∀ o ∈ s.out, o.Holds P

end Holds

variable {P Q : LogEntry → Prop}

theorem Output.Holds.mono (hPQ : ∀ e, P e → Q e) {o : Output} (h : o.Holds P) : o.Holds Q := by
  rcases o with ⟨_, _, _, _ | _ | _⟩ | _ | _ | _
  case call.appendEntries => exact fun e he => hPQ e (h e he)
  all_goals trivial

theorem Output.holds_of_isPlain {o : Output} (h : o.isPlain = true) : o.Holds P := by
  rcases o with ⟨_, _, _, _ | _ | _⟩ | _ | _ | _
  case call.appendEntries => contradiction
  all_goals trivial

namespace Stretch

theorem Holds.mono (hPQ : ∀ e, P e → Q e) {k : Stretch} (h : k.Holds P) : k.Holds Q := by
  cases k with
  | applyLoop | handleAppendEntries | acceptEntries => exact fun e he => hPQ e (h e he)
  | _ => trivial

theorem holds_of_isPlain {k : Stretch} (h : k.isPlain = true) (h' : k.isHandler = false) :
    k.Holds P := by
  cases k with
  | applyLoop | handleAppendEntries | acceptEntries => contradiction
  | _ => trivial

variable {n : RaftNode σ} {k : Stretch}

/-- An entry of the log was there before, came with a request or is new. -/
theorem mem_run_entries {e : LogEntry} (he : e ∈ (k.run n).shared.log.entries) :
    e ∈ n.log.entries ∨ (∃ req, k = .acceptEntries req ∧ e ∈ req.entries) ∨ k.Proposes n e := by
  have hacts := k.acts n
  generalize (k.run n).shared = n' at hacts he
  cases hacts with
  | follow term leader =>
      rw [(RaftNode.SameData.becomeFollower n term leader).entries] at he
      exact .inl he
  | vote req | voteLater req =>
      rw [(RaftNode.SameData.castVote n req).entries] at he
      exact .inl he
  -- the two sections that propose, with the entry each one makes
  | propose data type hrole =>
      refine (n.log.mem_appendAndSync_entries _ he).imp_right fun hnew => .inr ?_
      rw [List.mem_singleton.mp hnew]
      exact .plain data type hrole
  | change change seen hrole =>
      refine (n.log.mem_appendAndSync_entries _ he).imp_right fun hnew => .inr ?_
      rw [List.mem_singleton.mp hnew]
      exact .change change seen hrole
  -- entries of a request are those it arrived with
  | accept req =>
      exact (n.log.mem_appendAndSync_entries _ he).imp_right fun hreq => .inl ⟨req, rfl, hreq⟩
  | install | compact => exact .inl (n.log.mem_compactUpTo_entries _ _ _ he)
  | apply e =>
      obtain ⟨_, _, _, _, hone⟩ := n.applyOne_eq e
      rw [hone] at he
      exact .inl he
  | idle | stand | lead | commit | claim | store | reject | count | backOff | matched
  | installed => exact .inl he

/-- What a stretch hands on. -/
theorem next_holds (hlog : ∀ e ∈ n.log.entries, P e) (hk : k.Holds P) :
    ∀ k' ∈ (k.run n).next, k'.Holds P := by
  intro k' hk'
  cases next_follows hk' with
  | claim => exact fun e he => hlog e (RaftNode.mem_collect he)
  | rest e rest => exact fun e' he' => hk e' (List.mem_cons_of_mem e he')
  | accept req => exact hk
  | plain hplain hhandler => exact holds_of_isPlain hplain hhandler
  | _ => trivial

/-- What a stretch sends. -/
theorem out_holds (hlog : ∀ e ∈ n.log.entries, P e) : ∀ o ∈ (k.run n).out, o.Holds P := by
  intro o ho
  cases out_sends ho with
  | entries peer => exact fun e he => hlog e (n.log.mem_of_mem_entriesAfter _ he)
  | plain hplain => exact Output.holds_of_isPlain hplain
  | _ => trivial

end Stretch

namespace Threads.Holds

variable {s s' : Threads σ} {a : Threads.Action}

theorem init (id : NodeId) (threshold : Nat) (config : ClusterConfig) :
    (Threads.init id threshold config : Threads σ).Holds P where
  synced := rfl
  log _ he := absurd he List.not_mem_nil
  pending := .nil
  sent _ ho := absurd ho List.not_mem_nil

omit [StateMachine σ] in
theorem mono (h : s.Holds P) (hPQ : ∀ e, P e → Q e) : s.Holds Q where
  synced := h.synced
  log e he := hPQ e (h.log e he)
  pending := h.pending.mono fun _ => Stretch.Holds.mono hPQ
  sent o ho := (h.sent o ho).mono hPQ

/-- A step keeps it, if it holds of the entries that come in and of those that
are proposed. -/
theorem step (h : s.Holds P) (hentry : ∀ entry, a = .start entry → entry.stretch.Holds P)
    (hnew : ∀ k ∈ s.running a, ∀ e, k.Proposes s.node e → P e) (hstep : s.step a = some s') :
    s'.Holds P := by
  obtain ⟨entry, rfl, rfl⟩ | ⟨i, k, ks, rfl, hi, rfl⟩ | ⟨-, rfl⟩ := Threads.step_cases hstep
  · exact { h with pending := h.pending.append (hentry entry rfl) }
  · have hk := h.pending.head hi
    refine ⟨Stretch.run_synced h.synced s.toHistory k, fun e he => ?_,
      h.pending.set hi (Stretch.next_holds h.log hk), fun o ho => ?_⟩
    · rcases Stretch.mem_run_entries he with hold | ⟨req, rfl, hreq⟩ | hproposed
      · exact h.log e hold
      · exact hk e hreq
      · exact hnew k (Threads.running_of_getElem? hi) e hproposed
    · exact (List.mem_append.mp ho).elim (h.sent o) (Stretch.out_holds h.log o)
  · -- the new process reads the log back from the files
    have hlog : s.node.restart.log = s.node.log := h.synced
    exact ⟨hlog ▸ h.synced, hlog ▸ h.log, .nil, h.sent⟩

end Threads.Holds

namespace ThreadedCluster

omit [StateMachine σ] in
/-- What enters a node was sent. -/
theorem Arrives.holds {c : ThreadedCluster σ} {n : NodeId} {entry : Entry}
    (harrives : c.Arrives n (.start entry)) (h : ∀ m, (c.nodes m).Holds P) :
    entry.stretch.Holds P := by
  rcases entry with _ | _ | _ | (_ | req | _) | ⟨_, _ | _ | _⟩ | _ | _ | _ | _ | _
  case rpc.appendEntries =>
    obtain ⟨m, -, o, ho, hrequests⟩ := harrives
    have hsent := (h m).sent o ho
    rcases o with call | _ | _ | _
    · obtain ⟨-, hrpc⟩ := of_decide_eq_true hrequests
      obtain ⟨_, _, _, rpc⟩ := call
      subst hrpc
      exact hsent
    all_goals contradiction
  all_goals trivial

/-- **What is true of every entry that is proposed is true of every entry**, in
any log, any thread and any request, if it stays true. -/
theorem holds_of_run {ok : ThreadedCluster σ → NodeId × Threads.Action → Prop}
    {P : ThreadedCluster σ → LogEntry → Prop} {members : List NodeId} {config : ClusterConfig}
    {threshold : Nat} {c : ThreadedCluster σ}
    (hrun : Run step ok (.init members config threshold) c)
    (hmono : ∀ x n a y, Run step ok (.init members config threshold) x → ok x (n, a) →
      x.step (n, a) = some y → ∀ e, P x e → P y e)
    (hnew : ∀ x n a y, Run step ok (.init members config threshold) x → ok x (n, a) →
      x.step (n, a) = some y →
      ∀ k ∈ (x.nodes n).running a, ∀ e, k.Proposes (x.nodes n).node e → P y e) :
    ∀ b, (c.nodes b).Holds (P c) := by
  -- induction on the run: what a node holds it had, it was sent, or it proposes now
  induction hrun with
  | refl => exact fun b => .init b threshold config
  | @snoc x y action hrun hok hstep ih =>
      obtain ⟨n, a⟩ := action
      intro b
      obtain ⟨-, harrives, -, hnode, hothers⟩ := step_cases hstep
      have hbefore : ∀ m, (x.nodes m).Holds (P y) := fun m =>
        (ih m).mono (hmono x n a y hrun hok hstep)
      by_cases hb : b = n
      · subst hb
        -- a request that arrives carries what its sender held
        refine (hbefore b).step (fun entry ha => ?_) (hnew x b a y hrun hok hstep) hnode
        subst ha
        exact harrives.holds hbefore
      · rw [hothers b hb]
        exact hbefore b

end ThreadedCluster

end KvRaft
