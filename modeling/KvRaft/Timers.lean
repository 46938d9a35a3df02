import KvRaft.AppendOnly
import KvRaft.Electable
import KvRaft.Heartbeat
import KvRaft.LeaderHint

/-!
# KvRaft.Timers

The clocks of a cluster, after `RaftNode::runLoop` and `resetElectionDeadline`.  Every
node has a thread that wakes up every ten milliseconds or so: a leader then sends
heartbeats if its last ones are old enough, any other node stands for election if its
deadline has passed.  The deadline is put off by a random time whenever the node hears
from a leader, votes or turns follower.

The clock says when things happen and adds nothing to what can happen
(`Timed.cluster_run`), so whatever holds in every run of the cluster holds here.  What
it adds is when elections are held:

* `leader_stays` — while the leader's thread wakes up and its requests arrive quickly
  enough, no process that is up stands for election, whatever the random timeouts are;
* `silence_starts_election` — a follower that nobody puts off stands within its longest
  timeout and one nap of its thread.
-/

namespace KvRaft

variable {σ : Type}

/-- The timer options of a node, with the defaults of `RaftOptions`. -/
structure TimerOptions where
  electionTimeoutMinMs : Nat := 150
  electionTimeoutMaxMs : Nat := 300
  heartbeatIntervalMs : Nat := 50
  min_le_max : electionTimeoutMinMs ≤ electionTimeoutMaxMs := by decide

/-- `draw` may come out of `uniform_int_distribution`. -/
def TimerOptions.Draws (o : TimerOptions) (draw : Nat) : Prop :=
  o.electionTimeoutMinMs ≤ draw ∧ draw ≤ o.electionTimeoutMaxMs

instance (o : TimerOptions) (draw : Nat) : Decidable (o.Draws draw) :=
  inferInstanceAs (Decidable (_ ∧ _))

/-! ## Who resets the election deadline -/

namespace RaftNode

/-- Handling the request resets the deadline: through `becomeFollower`, or because the
vote is granted. -/
def resetsOn (n : RaftNode σ) : Rpc → Bool
  | .requestVote req _ =>
      decide (n.log.currentTerm < req.term) || (n.handleRequestVote req).2.voteGranted
  | .appendEntries req => decide (n.log.currentTerm ≤ req.term)
  | .installSnapshot req => decide (n.log.currentTerm ≤ req.term)

/-- The callback resets the deadline, through `becomeFollower`. -/
def resetsOnReply (n : RaftNode σ) : Answer → Bool
  | .requestVote req _ resp =>
      decide (n.role = .candidate ∧ n.log.currentTerm = req.term ∧ req.term < resp.term)
  | .appendEntries _ resp => decide (n.log.currentTerm < resp.term)
  | .installSnapshot _ resp => decide (n.log.currentTerm < resp.term)

end RaftNode

/-- The node whose `electionDeadline_` a step resets. -/
def Cluster.resetBy (c : Cluster σ) : Action → Option NodeId
  | .deliver i =>
      (c.calls[i]?.filter fun call => (c.nodes call.target).resetsOn call.rpc).map Call.target
  | .redeliver i =>
      (c.copies[i]?.filter fun call => (c.nodes call.target).resetsOn call.rpc).map Call.target
  | .reply i =>
      (c.replies[i]?.filter fun r => (c.nodes r.sender).resetsOnReply r.answer).map Reply.sender
  -- `becomeCandidate` and `start`
  | .timeout n | .restart n => some n
  | _ => none

/-! ## The clocked cluster -/

structure Timed (σ : Type) where
  cluster : Cluster σ
  /-- `steady_clock::now()`, in milliseconds -/
  now : Nat
  electionDeadline : NodeId → Nat
  /-- `lastHeartbeat` of the node's `runLoop` -/
  lastHeartbeat : NodeId → Nat
  /-- when the node's `runLoop` last woke up -/
  woke : NodeId → Nat
  /-- the calls of the cluster, with the times at which they were sent -/
  sent : List (Call × Nat)

namespace Timed

inductive Action
  /-- time passes -/
  | pass (ms : Nat)
  /-- the loop of a node wakes up and runs once; `draw` is the timeout it would draw -/
  | wake (n : NodeId) (draw : Nat)
  /-- anything else that happens in the cluster -/
  | act (a : KvRaft.Action) (draw : Nat)
  deriving DecidableEq

/-- How long the loop sleeps, at least. -/
def loopSleepMs : Nat := 10

/-- All processes are started at time `0`, and node `n` draws the timeout `draws n`. -/
def start [StateMachine σ] (S : Setup) (draws : NodeId → Nat) : Timed σ where
  cluster := S.start
  now := 0
  electionDeadline := draws
  lastHeartbeat := fun _ => 0
  woke := fun _ => 0
  sent := []

/-- The calls that a step leaves on their way. -/
def left (s : Timed σ) : KvRaft.Action → List (Call × Nat)
  | .deliver i => s.sent.eraseIdx i
  | _ => s.sent

/-- The clocks after the cluster has come to `c` by the step `a`. -/
def took (s : Timed σ) (a : KvRaft.Action) (draw : Nat) (c : Cluster σ) : Timed σ :=
  { s with
    cluster := c
    electionDeadline := fun n =>
      if s.cluster.resetBy a = some n then s.now + draw else s.electionDeadline n
    sent := s.left a ++ (c.calls.drop (s.left a).length).map fun call => (call, s.now) }

variable [StateMachine σ]

def take (s : Timed σ) (a : KvRaft.Action) (draw : Nat) : Option (Timed σ) :=
  (s.cluster.step a).map (s.took a draw)

/-- One round of `runLoop`, up to `maybeSnapshot`. -/
def runLoop (o : TimerOptions) (s : Timed σ) (n : NodeId) (draw : Nat) : Option (Timed σ) :=
  if (s.cluster.nodes n).role = .leader then
    if o.heartbeatIntervalMs ≤ s.now - s.lastHeartbeat n then
      (s.take (.heartbeat n) draw).map fun s' =>
        { s' with lastHeartbeat := Function.update s'.lastHeartbeat n s.now }
    else some s
  else if s.electionDeadline n ≤ s.now then s.take (.timeout n) draw
  else some s

/-- What only the loop does. -/
def ofLoop : KvRaft.Action → Bool
  | .timeout _ | .heartbeat _ | .maybeSnapshot _ => true
  | _ => false

def step (o : TimerOptions) (s : Timed σ) : Action → Option (Timed σ)
  | .pass ms => some { s with now := s.now + ms }
  | .wake n draw =>
      if s.woke n + loopSleepMs ≤ s.now ∧ o.Draws draw then do
        let s₁ ← s.runLoop o n draw
        let s₂ ← s₁.take (.maybeSnapshot n) draw
        some { s₂ with woke := Function.update s.woke n s.now }
      else none
  | .act a draw =>
      if ofLoop a = false ∧ o.Draws draw then
        -- a new process starts a new loop
        (s.take a draw).map fun s' =>
          { s' with
            lastHeartbeat := fun n => if a = .restart n then s.now else s.lastHeartbeat n
            woke := fun n => if a = .restart n then s.now else s.woke n }
      else none

/-- The configuration stays as it is, and no vote is counted twice for being copied. -/
def Steady (s : Timed σ) : Action → Prop
  | .act a _ => s.cluster.Steady a
  | _ => True

instance (s : Timed σ) : (a : Action) → Decidable (s.Steady a)
  | .act a _ => inferInstanceAs (Decidable (s.cluster.Steady a))
  | .pass _ => isTrue trivial
  | .wake _ _ => isTrue trivial

variable {o : TimerOptions} {s s' : Timed σ} {a : Action}

/-! ## What a step does -/

theorem take_eq_some {b : KvRaft.Action} {draw : Nat} :
    s.take b draw = some s' ↔ ∃ c, s.cluster.step b = some c ∧ s' = s.took b draw c := by
  rw [take, Option.map_eq_some_iff]
  exact exists_congr fun c => and_congr_right fun _ => eq_comm

/-- Everything a round of the loop can do. -/
theorem runLoop_cases {n : NodeId} {draw : Nat} (h : s.runLoop o n draw = some s') :
    ((s.cluster.nodes n).role = .leader ∧ s.now - s.lastHeartbeat n < o.heartbeatIntervalMs ∧
      s' = s) ∨
    ((s.cluster.nodes n).role = .leader ∧ ∃ c, s.cluster.step (.heartbeat n) = some c ∧
      s' = { s.took (.heartbeat n) draw c with
        lastHeartbeat := Function.update s.lastHeartbeat n s.now }) ∨
    ((s.cluster.nodes n).role ≠ .leader ∧ s.electionDeadline n ≤ s.now ∧
      ∃ c, s.cluster.step (.timeout n) = some c ∧ s' = s.took (.timeout n) draw c) ∨
    ((s.cluster.nodes n).role ≠ .leader ∧ s.now < s.electionDeadline n ∧ s' = s) := by
  unfold runLoop at h
  split at h
  · next hrole =>
    -- a leader broadcasts when its interval is over
    split at h
    · obtain ⟨_, htake, rfl⟩ := Option.map_eq_some_iff.mp h
      obtain ⟨c, hc, rfl⟩ := take_eq_some.mp htake
      exact .inr (.inl ⟨hrole, c, hc, rfl⟩)
    · next hearly => exact .inl ⟨hrole, Nat.lt_of_not_le hearly, (Option.some.inj h).symm⟩
  · next hrole =>
    -- anyone else stands for election when its deadline has passed
    split at h
    · next hdue => exact .inr (.inr (.inl ⟨hrole, hdue, take_eq_some.mp h⟩))
    · next hdue =>
      exact .inr (.inr (.inr ⟨hrole, Nat.lt_of_not_le hdue, (Option.some.inj h).symm⟩))

/-- Everything a step can do. -/
theorem step_cases (h : s.step o a = some s') :
    (∃ ms, a = .pass ms ∧ s' = { s with now := s.now + ms }) ∨
    (∃ n draw s₁ c, a = .wake n draw ∧ o.Draws draw ∧ s.runLoop o n draw = some s₁ ∧
      s₁.cluster.step (.maybeSnapshot n) = some c ∧
      s' = { s₁.took (.maybeSnapshot n) draw c with
        woke := Function.update s.woke n s.now }) ∨
    (∃ b draw c, a = .act b draw ∧ ofLoop b = false ∧ o.Draws draw ∧
      s.cluster.step b = some c ∧
      s' = { s.took b draw c with
        lastHeartbeat := fun n => if b = .restart n then s.now else s.lastHeartbeat n
        woke := fun n => if b = .restart n then s.now else s.woke n }) := by
  cases a with
  | pass ms => exact .inl ⟨ms, rfl, (Option.some.inj h).symm⟩
  | wake n draw =>
      obtain ⟨⟨-, hdraw⟩, h⟩ := Option.ite_none_right_eq_some.mp h
      -- first the branch of the role, then `maybeSnapshot`
      obtain ⟨s₁, hloop, h⟩ := Option.bind_eq_some_iff.mp h
      obtain ⟨s₂, htake, h⟩ := Option.bind_eq_some_iff.mp h
      obtain ⟨c, hc, rfl⟩ := take_eq_some.mp htake
      exact .inr (.inl ⟨n, draw, s₁, c, rfl, hdraw, hloop, hc, (Option.some.inj h).symm⟩)
  | act b draw =>
      obtain ⟨⟨hloop, hdraw⟩, h⟩ := Option.ite_none_right_eq_some.mp h
      obtain ⟨s₁, htake, rfl⟩ := Option.map_eq_some_iff.mp h
      obtain ⟨c, hc, rfl⟩ := take_eq_some.mp htake
      exact .inr (.inr ⟨b, draw, c, rfl, hloop, hdraw, hc, rfl⟩)

/-! ## The cluster behind the clocks -/

omit [StateMachine σ] in
theorem steady_of_ofLoop {b : KvRaft.Action} (h : ofLoop b = true) (c : Cluster σ) :
    c.Steady b := by
  cases b with
  | timeout | heartbeat | maybeSnapshot => exact ⟨rfl, rfl⟩
  | _ => contradiction

theorem cluster_runLoop {n : NodeId} {draw : Nat} (h : s.runLoop o n draw = some s') :
    Run Cluster.step Cluster.Steady s.cluster s'.cluster := by
  obtain ⟨-, -, rfl⟩ | ⟨-, c, hc, rfl⟩ | ⟨-, -, c, hc, rfl⟩ | ⟨-, -, rfl⟩ := runLoop_cases h
  · exact .refl _
  · exact .single (steady_of_ofLoop rfl _) hc
  · exact .single (steady_of_ofLoop rfl _) hc
  · exact .refl _

theorem cluster_step (h : s.step o a = some s') (hok : s.Steady a) :
    Run Cluster.step Cluster.Steady s.cluster s'.cluster := by
  obtain ⟨ms, -, rfl⟩ | ⟨n, draw, s₁, c, -, -, hloop, hc, rfl⟩ |
    ⟨b, draw, c, rfl, -, -, hc, rfl⟩ := step_cases h
  · exact .refl _
  · exact .snoc (cluster_runLoop hloop) (steady_of_ofLoop rfl _) hc
  · exact .single hok hc

/-- **The clocks add nothing**: a clocked run is a run of the cluster. -/
theorem cluster_run {ok : Timed σ → Action → Prop} (hok : ∀ x a, ok x a → x.Steady a)
    (hrun : Run (step o) ok s s') : Run Cluster.step Cluster.Steady s.cluster s'.cluster :=
  hrun.invariant (P := fun x => Run Cluster.step Cluster.Steady s.cluster x.cluster) (.refl _)
    fun x a _ hx hxa hstep => hx.trans (cluster_step hstep (hok x a hxa))

/-! ## The bookkeeping of the clocks -/

/-- The clocks are in order. -/
structure Clocked (o : TimerOptions) (s : Timed σ) : Prop where
  sent : s.sent.map Prod.fst = s.cluster.calls
  woke_le : ∀ n, s.woke n ≤ s.now
  beat_le : ∀ n, s.lastHeartbeat n ≤ s.now
  deadline_le : ∀ n, s.electionDeadline n ≤ s.now + o.electionTimeoutMaxMs

theorem Clocked.start (S : Setup) {draws : NodeId → Nat} (h : ∀ n, o.Draws (draws n)) :
    Clocked o (start S draws : Timed σ) where
  sent := rfl
  woke_le := fun _ => Nat.le_refl _
  beat_le := fun _ => Nat.le_refl _
  deadline_le := fun n => (h n).2.trans (Nat.le_add_left _ _)

variable {b : KvRaft.Action} {draw : Nat} {c : Cluster σ}

/-- A step takes at most the call it delivers from those on their way. -/
theorem left_isPrefix (h : s.sent.map Prod.fst = s.cluster.calls)
    (hstep : s.cluster.step b = some c) : (s.left b).map Prod.fst <+: c.calls := by
  obtain ⟨n, nd, out, hown, -, rfl⟩ | ⟨i, call, rfl, -, -, rfl⟩ | ⟨_, call, rfl, -, rfl⟩ |
    ⟨_, call, rfl, -, rfl⟩ | ⟨i, call, rfl, -, -, rfl⟩ | ⟨i, r, rfl, -, -, -, rfl⟩ :=
    Cluster.step_cases hstep
  · -- only a delivery takes a call away
    have hleft : s.left b = s.sent := by
      cases b with
      | deliver => cases hown
      | _ => rfl
    rw [hleft, h]
    exact List.prefix_append _ _
  · change (s.sent.eraseIdx i).map Prod.fst <+: s.cluster.calls.eraseIdx i
    rw [← h, List.eraseIdx_map]
  all_goals
    change s.sent.map Prod.fst <+: _
    rw [h]
  · exact List.prefix_append _ _
  · exact List.prefix_rfl
  · exact List.prefix_rfl
  · exact List.prefix_append _ _

omit [StateMachine σ] in
/-- A call that is on its way stays so unless it is delivered. -/
theorem mem_took_sent (h : s.sent.map Prod.fst = s.cluster.calls) {x : Call × Nat}
    (hx : x ∈ s.sent) : x ∈ (s.took b draw c).sent ∨ s.cluster.delivered b = some x.1 := by
  suffices hleft : x ∈ s.left b ∨ s.cluster.delivered b = some x.1 from
    hleft.imp_left (List.mem_append_left _)
  cases b with
  | deliver i =>
      obtain ⟨j, hj⟩ := List.mem_iff_getElem?.mp hx
      by_cases hij : j = i
      · subst hij
        refine .inr ?_
        rw [Cluster.delivered, ← h, List.getElem?_map, hj]
        rfl
      · exact .inl (List.mem_eraseIdx_iff_getElem?.mpr ⟨j, hij, hj⟩)
  | _ => exact .inl hx

omit [StateMachine σ] in
/-- A call that is new was sent just now. -/
theorem of_mem_took_sent {x : Call × Nat} (hx : x ∈ (s.took b draw c).sent) :
    x ∈ s.sent ∨ x.2 = s.now := by
  rcases List.mem_append.mp hx with hx | hx
  · cases b with
    | deliver i => exact .inl (List.mem_of_mem_eraseIdx hx)
    | _ => exact .inl hx
  · obtain ⟨call, -, rfl⟩ := List.mem_map.mp hx
    exact .inr rfl

/-- The heartbeats of a leader are on their way, with the time at which they were sent. -/
theorem mem_took_heartbeat (h : s.sent.map Prod.fst = s.cluster.calls) {n : NodeId}
    (hstep : s.cluster.step (.heartbeat n) = some c) {call : Call}
    (hcall : call ∈ (s.cluster.nodes n).broadcastAppendEntries) :
    (call, s.now) ∈ (s.took (.heartbeat n) draw c).sent := by
  obtain ⟨n, nd, out, hown, -, rfl⟩ | ⟨_, _, ha, -⟩ | ⟨_, _, ha, -⟩ | ⟨_, _, ha, -⟩ |
    ⟨_, _, ha, -⟩ | ⟨_, _, ha, -⟩ := Cluster.step_cases hstep
  · cases hown
    have hlength : s.sent.length = s.cluster.calls.length := by rw [← h, List.length_map]
    refine List.mem_append_right _ (List.mem_map.mpr ⟨call, ?_, rfl⟩)
    change call ∈ (s.cluster.calls ++ _).drop s.sent.length
    rwa [hlength, List.drop_left]
  all_goals cases ha

theorem Clocked.took (h : Clocked o s) (hdraw : o.Draws draw)
    (hstep : s.cluster.step b = some c) : Clocked o (s.took b draw c) where
  sent := by
    change List.map Prod.fst (s.left b ++ _) = c.calls
    have hwhole := List.prefix_iff_eq_append.mp (left_isPrefix h.sent hstep)
    rw [List.length_map] at hwhole
    rw [List.map_append, List.map_map]
    exact (congrArg _ (List.map_id _)).trans hwhole
  woke_le := h.woke_le
  beat_le := h.beat_le
  deadline_le := fun n => by
    change (if _ then s.now + draw else s.electionDeadline n) ≤ s.now + _
    split
    · exact Nat.add_le_add_left hdraw.2 _
    · exact h.deadline_le n

omit [StateMachine σ] in
theorem update_le {f : NodeId → Nat} {k : Nat} (h : ∀ n, f n ≤ k) (n m : NodeId) :
    Function.update f n k m ≤ k := by
  rcases eq_or_ne m n with rfl | hne
  · exact (Function.update_self m k f).le
  · exact (Function.update_of_ne hne k f).le.trans (h m)

theorem Clocked.runLoop {n : NodeId} (h : Clocked o s) (hdraw : o.Draws draw)
    (hloop : s.runLoop o n draw = some s') : Clocked o s' := by
  obtain ⟨-, -, rfl⟩ | ⟨-, c, hc, rfl⟩ | ⟨-, -, c, hc, rfl⟩ | ⟨-, -, rfl⟩ := runLoop_cases hloop
  · exact h
  · have htook := h.took hdraw hc
    exact ⟨htook.sent, htook.woke_le, update_le h.beat_le n, htook.deadline_le⟩
  · exact h.took hdraw hc
  · exact h

theorem now_runLoop {n : NodeId} (hloop : s.runLoop o n draw = some s') : s'.now = s.now := by
  obtain ⟨-, -, rfl⟩ | ⟨-, c, -, rfl⟩ | ⟨-, -, c, -, rfl⟩ | ⟨-, -, rfl⟩ := runLoop_cases hloop
  all_goals rfl

theorem Clocked.step (h : Clocked o s) (hstep : s.step o a = some s') : Clocked o s' := by
  obtain ⟨ms, -, rfl⟩ | ⟨n, draw, s₁, c, -, hdraw, hloop, hc, rfl⟩ |
    ⟨b, draw, c, -, -, hdraw, hc, rfl⟩ := step_cases hstep
  · have hle : s.now ≤ s.now + ms := Nat.le_add_right _ _
    exact ⟨h.sent, fun n => (h.woke_le n).trans hle, fun n => (h.beat_le n).trans hle,
      fun n => (h.deadline_le n).trans (Nat.add_le_add_right hle _)⟩
  · have htook := (h.runLoop hdraw hloop).took hdraw hc
    refine ⟨htook.sent, fun m => ?_, htook.beat_le, htook.deadline_le⟩
    change Function.update s.woke n s.now m ≤ s₁.now
    rw [now_runLoop hloop]
    exact update_le h.woke_le n m
  · have htook := h.took hdraw hc
    have hle : ∀ {f : NodeId → Nat}, (∀ n, f n ≤ s.now) → ∀ n : NodeId,
        (if b = .restart n then s.now else f n) ≤ s.now := by
      intro f hf n
      split
      · exact Nat.le_refl _
      · exact hf n
    exact ⟨htook.sent, hle h.woke_le, hle h.beat_le, htook.deadline_le⟩

theorem Clocked.run {ok : Timed σ → Action → Prop} (h : Clocked o s)
    (hrun : Run (Timed.step o) ok s s') : Clocked o s' :=
  hrun.invariant h fun _ _ _ hx _ hstep => hx.step hstep

end Timed

/-! ## A settled leader -/

/-- The term of the node that answered. -/
def Answer.term : Answer → Nat
  | requestVote _ _ resp => resp.term
  | appendEntries _ resp => resp.term
  | installSnapshot _ resp => resp.term

namespace RaftNode

variable [StateMachine σ] {n : RaftNode σ}

/-- An answer carries the term its node has come to. -/
theorem handle_answer_term (n : RaftNode σ) (rpc : Rpc) :
    (n.handle rpc).2.term = (n.handle rpc).1.log.currentTerm := by
  cases rpc with
  | requestVote req majority =>
      change (n.handleRequestVote req).2.term = (n.handleRequestVote req).1.log.currentTerm
      -- the vote is answered in the term after a newer one was adopted
      have hcast : ∀ m : RaftNode σ,
          (m.castVote req).2.term = (m.castVote req).1.log.currentTerm := by
        intro m
        unfold castVote
        split <;> rfl
      unfold handleRequestVote
      split
      · rfl
      · exact hcast _
  | appendEntries req =>
      change (n.handleAppendEntries req).2.term = (n.handleAppendEntries req).1.log.currentTerm
      unfold handleAppendEntries
      split
      · rfl
      · dsimp only
        split <;> rfl
  | installSnapshot req =>
      change (n.handleInstallSnapshot req).2.term = (n.handleInstallSnapshot req).1.log.currentTerm
      unfold handleInstallSnapshot
      split
      · rfl
      · dsimp only
        split
        · rfl
        · exact (PersistentLog.compactUpTo_currentTerm _ _ _ _).symm

/-- A request of no later term leaves the term alone, and the role as well unless it
comes from a leader of this term. -/
theorem handle_of_term_le {rpc : Rpc} (h : rpc.term ≤ n.log.currentTerm) :
    (n.handle rpc).1.log.currentTerm = n.log.currentTerm ∧
      ((n.handle rpc).1.role = n.role ∨
        rpc.leader? ≠ none ∧ rpc.term = n.log.currentTerm ∧ (n.handle rpc).1.role = .follower) := by
  -- requests for votes leave the role alone, the others come from a leader
  by_cases hvote : ∃ req majority, rpc = .requestVote req majority
  · obtain ⟨req, majority, rfl⟩ := hvote
    change (n.handleRequestVote req).1.log.currentTerm = _ ∧
      ((n.handleRequestVote req).1.role = _ ∨ _)
    unfold handleRequestVote
    split
    · exact ⟨rfl, .inl rfl⟩
    · -- a newer term is out of the question here
      have hnot : ¬ req.term > n.log.currentTerm := Nat.not_lt.mpr h
      rw [if_neg hnot]
      exact ⟨castVote_currentTerm req, .inl (castVote_role req)⟩
  · have hhandles := n.handles_handle rpc
    have hleads : rpc.leader? ≠ none := by
      cases rpc with
      | requestVote req majority => exact absurd ⟨req, majority, rfl⟩ hvote
      | appendEntries | installSnapshot => exact Option.some_ne_none _
    generalize (n.handle rpc).1 = n' at hhandles
    cases hhandles with
    | refuse => exact ⟨rfl, .inl rfl⟩
    | vote req majority | voteLater req majority => exact absurd ⟨req, majority, rfl⟩ hvote
    -- accepting or not, the handler has stepped down to the sender's term, which is its own
    | reject req hterm | covered req hterm =>
        have heq : req.term = n.log.currentTerm := Nat.le_antisymm h hterm
        exact ⟨(becomeFollower_currentTerm n hterm _).trans heq, .inr ⟨hleads, heq, rfl⟩⟩
    | accept req hacc =>
        have heq : req.term = n.log.currentTerm := Nat.le_antisymm h hacc.1
        refine ⟨?_, .inr ⟨hleads, heq, applyCommittedEntries_role _⟩⟩
        rw [applyCommittedEntries_log]
        change (PersistentLog.appendAndSync _ _).currentTerm = _
        rw [PersistentLog.appendAndSync_currentTerm]
        exact (becomeFollower_currentTerm n hacc.1 _).trans heq
    | install req hterm hgt =>
        have heq : req.term = n.log.currentTerm := Nat.le_antisymm h hterm
        refine ⟨?_, .inr ⟨hleads, heq, rfl⟩⟩
        change (PersistentLog.compactUpTo _ _ _ _).currentTerm = _
        rw [PersistentLog.compactUpTo_currentTerm]
        exact (becomeFollower_currentTerm n hterm _).trans heq

/-- So does an answer of no later term, to a node that is no candidate. -/
theorem callback_of_term_le {ans : Answer} (h : ans.term ≤ n.log.currentTerm)
    (hrole : n.role ≠ .candidate) (peer : NodeId) :
    (n.callback peer ans).1.log = n.log ∧ (n.callback peer ans).1.role = n.role := by
  cases ans with
  | requestVote req majority resp =>
      simp only [callback, onRequestVoteReply, if_pos (Or.inl hrole), and_self]
  | appendEntries req resp =>
      have hnot : ¬ resp.term > n.log.currentTerm := Nat.not_lt.mpr h
      simp only [callback, onAppendEntriesReply, if_neg hnot]
      split
      · exact ⟨rfl, rfl⟩
      · split
        · exact ⟨tryAdvanceCommitIndex_log _, tryAdvanceCommitIndex_role _⟩
        · exact ⟨rfl, rfl⟩
  | installSnapshot req resp =>
      have hnot : ¬ resp.term > n.log.currentTerm := Nat.not_lt.mpr h
      simp only [callback, onInstallSnapshotReply, if_neg hnot, and_self]

end RaftNode

namespace Cluster

variable [StateMachine σ] {c c' : Cluster σ} {a : Action}

/-- Files are up to date, and no reply carries a term its node has not come to. -/
structure Told (c : Cluster σ) : Prop where
  synced : ∀ n, (c.nodes n).log.Synced
  known : ∀ r ∈ c.replies, r.answer.term ≤ (c.nodes r.target).log.currentTerm

theorem Told.start (S : Setup) : Told (S.start : Cluster σ) where
  synced := fun _ => rfl
  known := fun _ hr => absurd hr List.not_mem_nil

theorem Told.step (h : Told c) (hstep : c.step a = some c') : Told c' := by
  refine ⟨fun n => ?_, ?_⟩
  · -- a restart reads the log back from the files, which are up to date
    rcases step_effects hstep n with ⟨-, heq⟩ | heffects
    · have hlog : (c'.nodes n).log = (c.nodes n).log := by
        rw [heq]
        exact h.synced n
      rw [hlog]
      exact h.synced n
    · exact heffects.invariant (P := fun x => x.log.Synced) (h.synced n)
        fun x y hx hxy => hxy.synced hx
  have hold : ∀ r ∈ c.replies, r.answer.term ≤ (c'.nodes r.target).log.currentTerm :=
    fun r hr => (h.known r hr).trans (term_le_of_synced (h.synced _) hstep)
  obtain ⟨n, nd, out, -, -, rfl⟩ | ⟨i, call, rfl, -, -, rfl⟩ | ⟨_, call, rfl, -, rfl⟩ |
    ⟨_, call, rfl, -, rfl⟩ | ⟨i, call, rfl, -, -, rfl⟩ | ⟨i, r, rfl, -, -, -, rfl⟩ :=
    step_cases hstep
  · exact hold
  · -- the new reply is in the term of the handler's own log
    intro r hr
    rcases List.mem_append.mp hr with hr | hr
    · exact hold r hr
    · rw [List.mem_singleton.mp hr]
      change _ ≤ (Function.update c.nodes call.target _ call.target).log.currentTerm
      rw [Function.update_self]
      exact (RaftNode.handle_answer_term _ _).le
  · exact hold
  · exact hold
  · exact hold
  · exact fun x hx => hold x (List.mem_of_mem_eraseIdx hx)

theorem Told.run {ok : Cluster σ → Action → Prop} (h : Told c)
    (hrun : Run Cluster.step ok c c') : Told c' :=
  hrun.invariant h fun _ _ _ hx _ hstep => hx.step hstep

theorem term_le_of_run {ok : Cluster σ → Action → Prop} (h : Told c)
    (hrun : Run Cluster.step ok c c') (b : NodeId) :
    (c.nodes b).log.currentTerm ≤ (c'.nodes b).log.currentTerm := by
  refine (hrun.invariant (P := fun x => Told x ∧
    (c.nodes b).log.currentTerm ≤ (x.nodes b).log.currentTerm) ⟨h, Nat.le_refl _⟩ ?_).2
  rintro x a y ⟨hx, hle⟩ - hstep
  exact ⟨hx.step hstep, hle.trans (term_le_of_synced (hx.synced b) hstep)⟩

end Cluster

section Calls

variable {voters : List NodeId} {c : Cluster σ} {g : Ghost} {call : Call}

/-- A call is of no later term than its sender. -/
theorem Sim.call_term_le (h : Sim .votes voters c g) (hcall : CallInv .votes voters g call) :
    call.rpc.term ≤ (c.nodes call.sender).log.currentTerm := by
  rw [(h.node call.sender).votes.term]
  unfold CallInv at hcall
  split at hcall
  · next req majority hrpc =>
    rw [hrpc]
    exact h.global.elections.stood_le _ _ _ hcall.stood
  · next req hrpc =>
    rw [hrpc]
    exact (h.global.elections.leader_le _ _ hcall.sent.leader).2
  · next req hrpc =>
    rw [hrpc]
    exact (h.global.elections.leader_le _ _ hcall.sent.leader).2

/-- A leader's request of the term that `n` leads comes from `n` and goes elsewhere. -/
theorem Sim.sender_of_leader (h : Sim .votes voters c g) (hcall : CallInv .votes voters g call)
    {n : NodeId} {t : Nat} (hn : (c.nodes n).InOffice t) (hleads : call.rpc.leader? ≠ none)
    (hterm : call.rpc.term = t) : call.sender = n ∧ call.target ≠ n := by
  have hleader := h.leader hn.1
  rw [hn.2] at hleader
  have hsent : ∀ {u}, FromLeader voters g call.sender call.target u → u = t →
      call.sender = n ∧ call.target ≠ n := by
    rintro u hfrom rfl
    -- one leader a term: the sender is the node itself, and it does not send to itself
    obtain rfl : call.sender = n := Option.some.inj (hfrom.leader.symm.trans hleader)
    exact ⟨rfl, hfrom.ne⟩
  unfold CallInv at hcall
  split at hcall
  · next req majority hrpc =>
    rw [hrpc] at hleads
    exact absurd rfl hleads
  · next req hrpc =>
    rw [hrpc] at hterm
    exact hsent hcall.sent hterm
  · next req hrpc =>
    rw [hrpc] at hterm
    exact hsent hcall.sent hterm

end Calls

namespace Cluster

variable {n : NodeId} {t : Nat} {up : List NodeId}

/-- `n` leads term `t`, the other processes that are up follow in it, and nobody has
seen a later term. -/
structure Settled (n : NodeId) (t : Nat) (up : List NodeId) (c : Cluster σ) : Prop where
  office : (c.nodes n).InOffice t
  follow : ∀ m ∈ up, m ≠ n → (c.nodes m).role = .follower ∧ (c.nodes m).log.currentTerm = t
  latest : ∀ m, (c.nodes m).log.currentTerm ≤ t

variable [StateMachine σ] {voters : List NodeId} {c c' : Cluster σ} {g : Ghost} {a : Action}

/-- What a step may do to a process that is up: the term stays, and the role as well
unless the process turns follower. -/
theorem Settled.step_node (h : Settled n t up c) (hsim : Sim .votes voters c g) (htold : Told c)
    (hstep : c.step a = some c') {b : NodeId} (hb : b = n ∨ b ∈ up) (hquiet : a ≠ .timeout b) :
    (c'.nodes b).log.currentTerm = (c.nodes b).log.currentTerm ∧
      ((c'.nodes b).role = (c.nodes b).role ∨
        (c'.nodes b).role = .follower ∧ (a = .restart b ∨ b ≠ n)) := by
  -- everyone concerned is in the leader's term, and nobody among them is a candidate
  have hterm : (c.nodes b).log.currentTerm = t := by
    by_cases hbn : b = n
    · exact hbn ▸ h.office.2
    · exact (h.follow b (hb.resolve_left hbn) hbn).2
  have hrole : (c.nodes b).role ≠ .candidate := by
    by_cases hbn : b = n
    · subst hbn
      rw [h.office.1]
      decide
    · rw [(h.follow b (hb.resolve_left hbn) hbn).1]
      decide
  obtain heq | ⟨sent, hown⟩ | ⟨call, hcall, rfl, heq⟩ | ⟨i, r, -, hr, rfl, heq⟩ :=
    Cluster.step_node hstep b
  · rw [heq]
    exact ⟨rfl, .inl rfl⟩
  · -- what the node does by itself
    obtain ⟨rfl, heq, -⟩ | ⟨rfl, -, -, -⟩ | ⟨heq, -⟩ | ⟨data, type, heq, -⟩ | ⟨heq, -⟩ |
      ⟨heq, -⟩ := ownStep_cases hown
    · -- restarting loses the role and keeps the log
      have hlog : (c'.nodes b).log = (c.nodes b).log := by
        rw [heq]
        exact htold.synced b
      refine ⟨by rw [hlog], .inr ⟨?_, .inl rfl⟩⟩
      rw [heq]
      rfl
    · exact absurd rfl hquiet
    · rw [heq]
      exact ⟨rfl, .inl rfl⟩
    all_goals
      have hsame : RaftNode.SameHint (c.nodes b) (c'.nodes b) := by
        rw [heq]
        first
          | exact RaftNode.propose_sameHint _ data type
          | exact RaftNode.forceSnapshot_sameHint _
          | exact RaftNode.maybeSnapshot_sameHint _
      exact ⟨hsame.term, .inl hsame.role⟩
  · -- a request in flight is of no later term; from the leader it makes a follower again
    have hcallInv : CallInv .votes voters g call :=
      (onItsWay_of_delivered hcall).elim (hsim.calls call) (hsim.copies call)
    have hle : call.rpc.term ≤ (c.nodes call.target).log.currentTerm := by
      rw [hterm]
      exact (hsim.call_term_le hcallInv).trans (h.latest call.sender)
    obtain ⟨hsame, hrole'⟩ := RaftNode.handle_of_term_le hle
    rw [heq]
    refine ⟨hsame, hrole'.imp_right ?_⟩
    rintro ⟨hleads, hcurrent, hfollower⟩
    exact ⟨hfollower, .inr (hsim.sender_of_leader hcallInv h.office hleads
      (hcurrent.trans hterm)).2⟩
  · -- an answer in flight tells of no later term either
    have hle : r.answer.term ≤ (c.nodes r.sender).log.currentTerm := by
      rw [hterm]
      exact (htold.known r (List.mem_of_getElem? hr)).trans (h.latest r.target)
    obtain ⟨hlog, hrole'⟩ := RaftNode.callback_of_term_le hle hrole r.target
    rw [heq]
    exact ⟨by rw [hlog], .inl hrole'⟩

/-- **A leader stays settled** as long as nobody stands for election and it is not
restarted. -/
theorem Settled.step (h : Settled n t up c) (hsim : Sim .votes voters c g) (htold : Told c)
    (hstep : c.step a = some c') (hwithin : c.Within up a) (hquiet : ∀ m, a ≠ .timeout m)
    (hstays : a ≠ .restart n) : Settled n t up c' where
  office := by
    obtain ⟨hterm, hrole⟩ := h.step_node hsim htold hstep (.inl rfl) (hquiet n)
    refine ⟨hrole.elim (·.trans h.office.1) ?_, hterm.trans h.office.2⟩
    rintro ⟨-, hrestart | hne⟩
    · exact absurd hrestart hstays
    · exact absurd rfl hne
  follow := fun m hm hne => by
    obtain ⟨hterm, hrole⟩ := h.step_node hsim htold hstep (.inr hm) (hquiet m)
    obtain ⟨hfollower, hcurrent⟩ := h.follow m hm hne
    exact ⟨hrole.elim (·.trans hfollower) (·.1), hterm.trans hcurrent⟩
  latest := fun m => by
    by_cases hm : m ∈ up
    · rw [(h.step_node hsim htold hstep (.inr hm) (hquiet m)).1]
      exact h.latest m
    · -- a node outside takes no step
      rcases step_actor hstep m with hsame | ⟨hactor, -⟩
      · rw [hsame]
        exact h.latest m
      · exact absurd (hwithin m hactor) hm

end Cluster

/-! ## What a follower sees of the leader -/

/-- The call is a request of `n`, the leader of term `t`, to `m`. -/
def Call.IsBeat (call : Call) (n m : NodeId) (t : Nat) : Prop :=
  call.sender = n ∧ call.target = m ∧ call.rpc.leader? ≠ none ∧ call.rpc.term = t

/-- The pace at which these timers keep followers calm. -/
def TimerOptions.pace (o : TimerOptions) (nap delay : Nat)
    (h : o.heartbeatIntervalMs + nap + delay < o.electionTimeoutMinMs) : Pace :=
  ⟨o.heartbeatIntervalMs, nap, delay, o.electionTimeoutMinMs, h⟩

theorem RaftNode.resetsOn_of_leader {n : RaftNode σ} {rpc : Rpc} (h : rpc.leader? ≠ none)
    (hterm : n.log.currentTerm ≤ rpc.term) : n.resetsOn rpc = true := by
  cases rpc with
  | requestVote => exact absurd rfl h
  | appendEntries | installSnapshot => exact decide_eq_true hterm

theorem Cluster.resetBy_of_delivered {c : Cluster σ} {a : Action} {call : Call}
    (h : c.delivered a = some call) (hresets : (c.nodes call.target).resetsOn call.rpc = true) :
    c.resetBy a = some call.target := by
  cases a with
  | deliver i | redeliver i =>
      simp only [Cluster.delivered] at h
      rw [Cluster.resetBy, h, Option.filter_some, if_pos hresets]
      rfl
  | _ => cases h

namespace Timed

/-- What `m` sees of `n`, the leader of term `t`; of the requests on their way, those that
were sent from the time `since` on. -/
def watch (s : Timed σ) (n : NodeId) (t since : Nat) (m : NodeId) : Watch where
  now := s.now
  looked := s.woke n
  beat := s.lastHeartbeat n
  coming := { time | since ≤ time ∧ ∃ call : Call, (call, time) ∈ s.sent ∧ call.IsBeat n m t }
  deadline := s.electionDeadline m

/-- The loop of `n` has woken up within `nap`, and what `n` has sent since `since` as a
leader to processes that are up has arrived within `delay`. -/
def OnTime (n : NodeId) (up : List NodeId) (nap delay since : Nat) (s : Timed σ) : Prop :=
  s.now ≤ s.woke n + nap ∧
    ∀ x ∈ s.sent, x.1.sender = n → x.1.target ∈ up → x.1.rpc.leader? ≠ none → since ≤ x.2 →
      s.now ≤ x.2 + delay

instance (n : NodeId) (up : List NodeId) (nap delay since : Nat) (s : Timed σ) :
    Decidable (s.OnTime n up nap delay since) :=
  inferInstanceAs (Decidable (_ ∧ _))

/-- The step is one of processes that are up, leaves the leader `n` running and lets
nothing of its come late. -/
def Prompt (n : NodeId) (up : List NodeId) (nap delay since : Nat) (s : Timed σ) : Action → Prop
  | .pass ms => ({ s with now := s.now + ms } : Timed σ).OnTime n up nap delay since
  | .wake m _ => m ∈ up
  | .act b _ => s.cluster.Steady b ∧ s.cluster.Within up b ∧ b ≠ .restart n

instance (n : NodeId) (up : List NodeId) (nap delay since : Nat) (s : Timed σ) :
    (a : Action) → Decidable (s.Prompt n up nap delay since a)
  | .pass _ => inferInstanceAs (Decidable (OnTime n up nap delay since _))
  | .wake m _ => inferInstanceAs (Decidable (m ∈ up))
  | .act _ _ => inferInstanceAs (Decidable (_ ∧ _ ∧ _))

section Quiet

variable {o : TimerOptions} {p : Pace} {s s' : Timed σ} {n m : NodeId} {t since : Nat}
  {up : List NodeId} {b : KvRaft.Action} {draw : Nat} {c : Cluster σ}

theorem Prompt.steady {nap delay : Nat} {a : Action} (h : s.Prompt n up nap delay since a) :
    s.Steady a := by
  cases a with
  | act => exact h.1
  | _ => trivial

theorem OnTime.watch (h : s.OnTime n up p.nap p.delay since) (hm : m ∈ up) :
    Watch.OnTime p (s.watch n t since m) where
  looks := h.1
  arrives := by
    rintro time ⟨hsince, call, hsent, rfl, rfl, hleads, -⟩
    exact h.2 _ hsent rfl hm hleads hsince

/-- What is sent now is not late. -/
theorem OnTime.took {nap delay : Nat} (h : s.OnTime n up nap delay since) :
    (s.took b draw c).OnTime n up nap delay since := by
  refine ⟨h.1, fun x hx hsender htarget hleads hsince => ?_⟩
  rcases of_mem_took_sent hx with hx | hx
  · exact h.2 x hx hsender htarget hleads hsince
  · change s.now ≤ x.2 + delay
    omega

/-- Requests stay on their way unless they are delivered. -/
theorem coming_subset (h : s.sent.map Prod.fst = s.cluster.calls)
    (hnot : ∀ call : Call, call.IsBeat n m t → s.cluster.delivered b ≠ some call) :
    (s.watch n t since m).coming ⊆ ((s.took b draw c).watch n t since m).coming := by
  rintro time ⟨hsince, call, hsent, hbeat⟩
  exact ⟨hsince, call, (mem_took_sent h hsent).resolve_right (hnot call hbeat), hbeat⟩

/-- A follower hears of the leader whenever one of its requests is delivered. -/
theorem watch_took (hclocked : Clocked o s) (hpatience : p.patience = o.electionTimeoutMinMs)
    (hdraw : o.Draws draw) (hterm : (s.cluster.nodes m).log.currentTerm = t) :
    Watch.Step p (s.watch n t since m) ((s.took b draw c).watch n t since m) := by
  by_cases hreset : s.cluster.resetBy b = some m
  · -- the deadline is set anew, a full time-out from now
    have hdeadline : (s.took b draw c).electionDeadline m = s.now + draw := if_pos hreset
    have hlate : s.now + p.patience ≤ (s.took b draw c).electionDeadline m := by
      rw [hdeadline, hpatience]
      exact Nat.add_le_add_left hdraw.1 _
    exact .hear (s.watch n t since m) _ hlate
  · have hdeadline : (s.took b draw c).electionDeadline m = s.electionDeadline m := if_neg hreset
    -- otherwise the beats that were coming still are: taking one resets the deadline
    have hsub : (s.watch n t since m).coming ⊆ ((s.took b draw c).watch n t since m).coming := by
      refine coming_subset hclocked.sent ?_
      rintro call ⟨-, rfl, hleads, rfl⟩ hdelivered
      exact hreset (Cluster.resetBy_of_delivered hdelivered
        (RaftNode.resetsOn_of_leader hleads hterm.le))
    have hsame : (s.took b draw c).watch n t since m = { s.watch n t since m with
        coming := ((s.took b draw c).watch n t since m).coming } :=
      congrArg (Watch.mk s.now (s.woke n) (s.lastHeartbeat n) _) hdeadline
    rw [hsame]
    exact .send _ hsub

/-- `n` leads term `t` undisturbed: its followers are calm. -/
structure Quiet [StateMachine σ] (S : Setup) (o : TimerOptions) (p : Pace) (n : NodeId)
    (t since : Nat) (up : List NodeId) (s : Timed σ) : Prop where
  reach : Run Cluster.step Cluster.Steady S.start s.cluster
  clocked : Clocked o s
  since_le : since ≤ s.now
  settled : s.cluster.Settled n t up
  onTime : s.OnTime n up p.nap p.delay since
  calm : ∀ m ∈ up, m ≠ n → Watch.Calm p (s.watch n t since m)

variable [StateMachine σ] {S : Setup}

theorem Quiet.sim (h : Quiet S o p n t since up s) :
    ∃ g, Sim .votes S.config.voters s.cluster g :=
  Sim.of_run S (h.reach.mono fun _ _ => Cluster.Followed.votes)

/-- A step of the cluster that starts no election and leaves the leader running. -/
theorem Quiet.took (h : Quiet S o p n t since up s)
    (hpatience : p.patience = o.electionTimeoutMinMs) (hdraw : o.Draws draw)
    (hsteady : s.cluster.Steady b) (hwithin : s.cluster.Within up b)
    (hquiet : ∀ m, b ≠ .timeout m) (hstays : b ≠ .restart n)
    (hstep : s.cluster.step b = some c) : Quiet S o p n t since up (s.took b draw c) := by
  obtain ⟨g, hsim⟩ := h.sim
  have htold := (Cluster.Told.start S).run h.reach
  exact {
    reach := .snoc h.reach hsteady hstep
    clocked := h.clocked.took hdraw hstep
    since_le := h.since_le
    settled := h.settled.step hsim htold hstep hwithin hquiet hstays
    onTime := h.onTime.took
    calm := fun m hm hne => (h.calm m hm hne).step (h.onTime.watch hm)
      (watch_took h.clocked hpatience hdraw (h.settled.follow m hm hne).2) }

/-- Heartbeats and snapshots. -/
theorem Quiet.took_loop (h : Quiet S o p n t since up s)
    (hpatience : p.patience = o.electionTimeoutMinMs) (hdraw : o.Draws draw) {k : NodeId}
    (hk : k ∈ up) (hb : b = .heartbeat k ∨ b = .maybeSnapshot k)
    (hstep : s.cluster.step b = some c) : Quiet S o p n t since up (s.took b draw c) := by
  rcases hb with rfl | rfl
  all_goals
    refine h.took hpatience hdraw (steady_of_ofLoop rfl _) (fun m hm => ?_) (fun m heq => ?_)
      (fun heq => ?_) hstep
    · exact Option.some.inj hm ▸ hk
    · cases heq
    · cases heq

/-- Only the clocks of the loops change. -/
theorem Quiet.clocks (h : Quiet S o p n t since up s) {woke lastHeartbeat : NodeId → Nat}
    (hwoke : ∀ k, woke k ≤ s.now) (hbeat : ∀ k, lastHeartbeat k ≤ s.now)
    (hlooks : s.woke n ≤ woke n)
    (hwatch : ∀ m ∈ up, m ≠ n → Watch.Step p (s.watch n t since m)
      { s.watch n t since m with looked := woke n, beat := lastHeartbeat n }) :
    Quiet S o p n t since up { s with woke, lastHeartbeat } where
  reach := h.reach
  clocked := ⟨h.clocked.sent, hwoke, hbeat, h.clocked.deadline_le⟩
  since_le := h.since_le
  settled := h.settled
  onTime := ⟨h.onTime.1.trans (Nat.add_le_add_right hlooks _), h.onTime.2⟩
  calm := fun m hm hne => (h.calm m hm hne).step (h.onTime.watch hm) (hwatch m hm hne)

/-- The leader's heartbeats are on their way to all followers. -/
theorem Quiet.beats (h : Quiet S o p n t since up s) (hup : ∀ m ∈ up, m ∈ S.config.voters)
    (hm : m ∈ up) (hne : m ≠ n) (hstep : s.cluster.step (.heartbeat n) = some c) :
    s.now ∈ ((s.took (.heartbeat n) draw c).watch n t since m).coming := by
  obtain ⟨g, hsim⟩ := h.sim
  have hid := (hsim.node n).votes.id
  have hvoters := (hsim.node n).votes.config
  have hcall : (s.cluster.nodes n).replicateTo m ∈
      (s.cluster.nodes n).broadcastAppendEntries := by
    rw [RaftNode.broadcastAppendEntries, if_neg (not_not.mpr h.settled.office.1), hvoters, hid]
    exact List.mem_map_of_mem (List.mem_filter.mpr ⟨hup m hm, decide_eq_true hne⟩)
  obtain ⟨hleads, hterm⟩ : ((s.cluster.nodes n).replicateTo m).rpc.leader? ≠ none ∧
      ((s.cluster.nodes n).replicateTo m).rpc.term = t := by
    rw [← h.settled.office.2]
    unfold RaftNode.replicateTo
    dsimp only
    split <;> exact ⟨Option.some_ne_none _, rfl⟩
  exact ⟨h.since_le, _, mem_took_heartbeat h.clocked.sent hstep hcall, hid, rfl, hleads, hterm⟩

/-- The loop of the leader wakes up. -/
theorem Quiet.wake_leader (h : Quiet S o p n t since up s)
    (hinterval : p.interval = o.heartbeatIntervalMs)
    (hpatience : p.patience = o.electionTimeoutMinMs) (hup : ∀ m ∈ up, m ∈ S.config.voters)
    (hdraw : o.Draws draw) (hn : n ∈ up) (hloop : s.runLoop o n draw = some s') :
    Quiet S o p n t since up { s' with woke := Function.update s.woke n s.now } := by
  have hself : Function.update s.woke n s.now n = s.now := Function.update_self _ _ _
  have hlooks : s.woke n ≤ Function.update s.woke n s.now n := by
    rw [hself]
    exact h.clocked.woke_le n
  have hwoke := update_le h.clocked.woke_le n
  -- the leader finds that it is early, or broadcasts
  obtain ⟨-, hearly, rfl⟩ | ⟨-, c, hc, rfl⟩ | ⟨hrole, -, -⟩ | ⟨hrole, -⟩ := runLoop_cases hloop
  · refine h.clocks hwoke h.clocked.beat_le hlooks fun m hm hne => ?_
    have hbeat := h.clocked.beat_le n
    have hlt : s'.now < s'.lastHeartbeat n + p.interval := by omega
    rw [hself]
    exact .look _ Set.Subset.rfl hlt
  · have htook := h.took_loop hpatience hdraw hn (.inl rfl) hc
    refine htook.clocks hwoke (update_le h.clocked.beat_le n) hlooks fun m hm hne => ?_
    dsimp only
    rw [hself, Function.update_self]
    exact .beat _ Set.Subset.rfl (h.beats hup hm hne hc)
  · exact absurd h.settled.office.1 hrole
  · exact absurd h.settled.office.1 hrole

/-- The loop of a follower wakes up, before its deadline. -/
theorem Quiet.wake_follower (h : Quiet S o p n t since up s) {k : NodeId} (hk : k ∈ up)
    (hne : k ≠ n) (hloop : s.runLoop o k draw = some s') :
    Quiet S o p n t since up { s' with woke := Function.update s.woke k s.now } := by
  have hfollower := (h.settled.follow k hk hne).1
  obtain ⟨hrole, -⟩ | ⟨hrole, -⟩ | ⟨-, hdue, -⟩ | ⟨-, -, rfl⟩ := runLoop_cases hloop
  · rw [hfollower] at hrole
    contradiction
  · rw [hfollower] at hrole
    contradiction
  · have hlt : s.now < s.electionDeadline k := (h.calm k hk hne).now_lt (h.onTime.watch hk)
    exact absurd hdue (Nat.not_le.mpr hlt)
  · have hsame : Function.update s'.woke k s'.now n = s'.woke n :=
      Function.update_of_ne hne.symm _ _
    refine h.clocks (update_le h.clocked.woke_le k) h.clocked.beat_le hsame.ge fun m _ _ => ?_
    rw [hsame]
    exact .send (s'.watch n t since m) Set.Subset.rfl

theorem Quiet.step {a : Action} (h : Quiet S o p n t since up s)
    (hinterval : p.interval = o.heartbeatIntervalMs)
    (hpatience : p.patience = o.electionTimeoutMinMs) (hup : ∀ m ∈ up, m ∈ S.config.voters)
    (hok : s.Prompt n up p.nap p.delay since a) (hstep : s.step o a = some s') :
    Quiet S o p n t since up s' := by
  obtain ⟨ms, rfl, rfl⟩ | ⟨k, draw, s₁, c, rfl, hdraw, hloop, hc, rfl⟩ |
    ⟨b, draw, c, rfl, hb, hdraw, hc, rfl⟩ := step_cases hstep
  · -- time passes, but no further than the promptness of everybody allows
    exact {
      reach := h.reach
      clocked := h.clocked.step hstep
      since_le := h.since_le.trans (Nat.le_add_right _ _)
      settled := h.settled
      onTime := hok
      calm := fun m hm hne => (h.calm m hm hne).step (h.onTime.watch hm) (.pass _ ms) }
  · -- a node wakes: its loop, then `maybeSnapshot`
    have hwoken : Quiet S o p n t since up { s₁ with woke := Function.update s.woke k s.now } := by
      rcases eq_or_ne k n with rfl | hne
      · exact h.wake_leader hinterval hpatience hup hdraw hok hloop
      · exact h.wake_follower hok hne hloop
    exact hwoken.took_loop hpatience hdraw hok (.inr rfl) hc
  · -- somebody else enters a node; only the loop stands for election
    obtain ⟨hsteady, hwithin, hstays⟩ := hok
    have hquiet : ∀ m, b ≠ .timeout m := by
      rintro m rfl
      cases hb
    have htook := h.took hpatience hdraw hsteady hwithin hquiet hstays hc
    have hclocked := h.clocked.step hstep
    refine htook.clocks hclocked.woke_le hclocked.beat_le (if_neg hstays).ge fun m _ _ => ?_
    rw [if_neg hstays, if_neg hstays]
    exact .send ((s.took b draw c).watch n t since m) Set.Subset.rfl

end Quiet

end Timed

/-! ## When elections are held -/

variable [StateMachine σ]

/-- **A leader that is heard stays**: in a cluster that has settled on the leader `n` of
term `t`, with time left on the election timers of the followers that are up, nobody
comes to stand for election while the loop of `n` wakes up at least every `nap`
milliseconds and what `n` sends them as a leader arrives within `delay`, provided that a heartbeat
interval, a nap and a delay are less than the shortest election timeout.  Clients may
propose, snapshots may be taken, followers restarted and messages copied or, if they
are older, delivered late all the while. -/
theorem leader_stays (S : Setup) (o : TimerOptions) {nap delay : Nat}
    (hfast : o.heartbeatIntervalMs + nap + delay < o.electionTimeoutMinMs)
    {draws : NodeId → Nat} (hdraws : ∀ m, o.Draws (draws m)) {s s' : Timed σ}
    (hreach : Run (Timed.step o) Timed.Steady (.start S draws) s)
    {n : NodeId} {t : Nat} {up : List NodeId} (hup : ∀ m ∈ up, m ∈ S.config.voters)
    (hoffice : (s.cluster.nodes n).InOffice t)
    (hfollow : ∀ m ∈ up, m ≠ n →
      (s.cluster.nodes m).role = .follower ∧ (s.cluster.nodes m).log.currentTerm = t ∧
        s.now + o.heartbeatIntervalMs + nap + delay < s.electionDeadline m)
    (hlatest : ∀ m ∈ S.members, (s.cluster.nodes m).log.currentTerm ≤ t)
    (hnap : s.now ≤ s.woke n + nap)
    (hrun : Run (Timed.step o) (Timed.Prompt n up nap delay s.now) s s') :
    (s'.cluster.nodes n).InOffice t ∧ ∀ m ∈ up, m ≠ n →
      (s'.cluster.nodes m).role = .follower ∧ (s'.cluster.nodes m).log.currentTerm = t ∧
        s'.now < s'.electionDeadline m := by
  have hcluster : Run Cluster.step Cluster.Steady S.start s.cluster :=
    Timed.cluster_run (fun _ _ hok => hok) hreach
  have hclocked : Timed.Clocked o s := (Timed.Clocked.start S hdraws).run hreach
  have hsettled : s.cluster.Settled n t up := by
    refine ⟨hoffice, fun m hm hne => ⟨(hfollow m hm hne).1, (hfollow m hm hne).2.1⟩, fun m => ?_⟩
    by_cases hm : m ∈ S.members
    · exact hlatest m hm
    · -- no process has this id, and so nothing has happened to it
      rw [Cluster.nodes_of_not_mem hcluster hm]
      exact Nat.zero_le t
  -- the invariant holds now, since the followers have time for one more beat
  have hquiet : Timed.Quiet S o (o.pace nap delay hfast) n t s.now up s := {
    reach := hcluster
    clocked := hclocked
    since_le := Nat.le_refl _
    settled := hsettled
    onTime := ⟨hnap, fun x _ _ _ _ hsince => hsince.trans (Nat.le_add_right _ _)⟩
    calm := fun m hm hne =>
      .of_heard (hclocked.woke_le n) (hclocked.beat_le n) (hfollow m hm hne).2.2 }
  have hend := hrun.invariant (P := Timed.Quiet S o (o.pace nap delay hfast) n t s.now up) hquiet
    fun x a y hx hok hstep => hx.step rfl rfl hup hok hstep
  refine ⟨hend.settled.office, fun m hm hne => ?_⟩
  obtain ⟨hrole, hterm⟩ := hend.settled.follow m hm hne
  exact ⟨hrole, hterm, (hend.calm m hm hne).now_lt (hend.onTime.watch hm)⟩

/-- Node 1 draws the shortest timeout, is elected by node 2 and has been heard by both
other nodes. -/
def firstHeard : Timed KvStore :=
  replay (Timed.step {}) (.start threeNodes fun m => if m = 1 then 150 else 300)
    [.pass 150, .wake 1 150, .act (.deliver 0) 200, .act (.reply 0) 150, .act (.deliver 1) 300,
      .act (.deliver 1) 300]

/-- Twenty milliseconds later it sends heartbeats, which arrive after another twenty. -/
def heardAgain : Timed KvStore :=
  replay (Timed.step {}) firstHeard
    [.pass 20, .wake 1 150, .pass 20, .wake 2 150, .act (.deliver 1) 150, .act (.deliver 1) 150]

theorem leader_stays_of_firstHeard :
    (heardAgain.cluster.nodes 1).InOffice 1 ∧ heardAgain.now = 190 ∧
      ∀ m ∈ [1, 2, 3], m ≠ 1 → (heardAgain.cluster.nodes m).role = .follower ∧
        (heardAgain.cluster.nodes m).log.currentTerm = 1 ∧
          heardAgain.now < heardAgain.electionDeadline m := by
  have hreach : Run (Timed.step {}) Timed.Steady
      (.start threeNodes fun m => if m = 1 then 150 else 300) firstHeard :=
    run_replay (by decide +kernel)
  have hrun : Run (Timed.step {}) (Timed.Prompt 1 [1, 2, 3] 20 20 firstHeard.now) firstHeard
      heardAgain := run_replay (by decide +kernel)
  have hdraws : ∀ m : NodeId, ({} : TimerOptions).Draws (if m = 1 then 150 else 300) := by
    intro m
    split <;> decide
  obtain ⟨hoffice, hfollow⟩ := leader_stays threeNodes {} (by decide) hdraws hreach (n := 1)
    (t := 1) (by decide) ⟨by decide +kernel, by decide +kernel⟩ (by decide +kernel)
    (by decide +kernel) (by decide +kernel) hrun
  exact ⟨hoffice, by decide +kernel, hfollow⟩

namespace Timed

variable {o : TimerOptions} {s x y : Timed σ} {m : NodeId} {nap : Nat} {a : Action}

/-- Nobody puts the deadline of `m` off, and its loop wakes up at least every `nap`
milliseconds. -/
def LeftAlone (m : NodeId) (nap : Nat) (s : Timed σ) : Action → Prop
  | .pass ms => s.now + ms ≤ s.woke m + nap
  | .wake _ _ => True
  | .act b _ => s.cluster.Steady b ∧ s.cluster.resetBy b ≠ some m

instance (m : NodeId) (nap : Nat) (s : Timed σ) :
    (a : Action) → Decidable (s.LeftAlone m nap a)
  | .pass _ => inferInstanceAs (Decidable (_ ≤ _))
  | .wake _ _ => isTrue trivial
  | .act _ _ => inferInstanceAs (Decidable (_ ∧ _))

/-- Since `s`, the follower `m` has stood for election, or it waits for the deadline it
had and has not found it passed. -/
def Waits (s : Timed σ) (m : NodeId) (x : Timed σ) : Prop :=
  (s.cluster.nodes m).log.currentTerm < (x.cluster.nodes m).log.currentTerm ∨
    (x.cluster.nodes m).role = .follower ∧
      (s.cluster.nodes m).log.currentTerm ≤ (x.cluster.nodes m).log.currentTerm ∧
      x.electionDeadline m = s.electionDeadline m ∧
      x.woke m ≤ max s.now (s.electionDeadline m)

/-- A step of the cluster that does not put the deadline off. -/
theorem Waits.took {b : KvRaft.Action} {c : Cluster σ} (h : Waits s m x)
    (htold : x.cluster.Told) (hstep : x.cluster.step b = some c)
    (hreset : x.cluster.resetBy b ≠ some m) (draw : Nat) : Waits s m (x.took b draw c) := by
  have hmono : (x.cluster.nodes m).log.currentTerm ≤ (c.nodes m).log.currentTerm :=
    Cluster.term_le_of_synced (htold.synced m) hstep
  rcases h with hlt | ⟨hrole, hle, hdeadline, hwoke⟩
  · exact .inl (hlt.trans_le hmono)
  · refine .inr ⟨?_, hle.trans hmono, (if_neg hreset).trans hdeadline, hwoke⟩
    refine (Cluster.role_of_follower_step hstep hrole).resolve_right ?_
    rintro ⟨rfl, -⟩
    exact hreset rfl

/-- A node that stands for election is in a later term. -/
theorem term_lt_of_timeout {c c' : Cluster σ} (hrole : (c.nodes m).role ≠ .leader)
    (hstep : c.step (.timeout m) = some c') :
    (c.nodes m).log.currentTerm < (c'.nodes m).log.currentTerm := by
  have hown : c.ownStep (.timeout m) = some (m, (c.nodes m).becomeCandidate) := if_neg hrole
  have hnode : c'.nodes m = (c.nodes m).becomeCandidate.1 := Cluster.step_ownStep hstep hown
  rw [hnode, ((c.nodes m).becomeCandidate_votes 0).2.1]
  exact Nat.lt_succ_self _

/-- The loop of `m` finds its deadline passed and stands, or finds that it has to wait. -/
theorem Waits.runLoop {k : NodeId} {draw : Nat} (h : Waits s m x) (htold : x.cluster.Told)
    (hloop : x.runLoop o k draw = some y) :
    Waits s m { y with woke := Function.update x.woke k x.now } := by
  -- the loop of another node does not touch this one
  have hother : ∀ {z : Timed σ}, k ≠ m → z.woke = x.woke → Waits s m z →
      Waits s m { z with woke := Function.update x.woke k x.now } := by
    intro z hne hwoke hz
    refine hz.imp_right fun hz => ⟨hz.1, hz.2.1, hz.2.2.1, ?_⟩
    change Function.update x.woke k x.now m ≤ _
    rw [Function.update_of_ne hne.symm, ← hwoke]
    exact hz.2.2.2
  rcases eq_or_ne k m with rfl | hne
  · -- its own loop: it has stood already, stands now, or has been awake before the deadline
    rcases h with hlt | ⟨hrole, hle, hdeadline, -⟩
    · exact .inl (hlt.trans_le (Cluster.term_le_of_run htold (cluster_runLoop hloop) k))
    · obtain ⟨hleads, -⟩ | ⟨hleads, -⟩ | ⟨hleads, -, c, hc, rfl⟩ | ⟨-, hwait, rfl⟩ :=
        runLoop_cases hloop
      · rw [hrole] at hleads
        contradiction
      · rw [hrole] at hleads
        contradiction
      · exact .inl (hle.trans_lt (term_lt_of_timeout hleads hc))
      · refine .inr ⟨hrole, hle, hdeadline, ?_⟩
        change Function.update y.woke k y.now k ≤ _
        rw [Function.update_self, ← hdeadline]
        exact hwait.le.trans (Nat.le_max_right _ _)
  · -- another loop may still send to it, which the silence excludes
    obtain ⟨-, -, rfl⟩ | ⟨-, c, hc, rfl⟩ | ⟨-, -, c, hc, rfl⟩ | ⟨-, -, rfl⟩ :=
      runLoop_cases hloop
    · exact hother hne rfl h
    · exact hother hne rfl (h.took htold hc (Option.some_ne_none m).symm draw)
    · exact hother hne rfl (h.took htold hc (fun heq => hne (Option.some.inj heq)) draw)
    · exact hother hne rfl h

theorem Waits.step (h : Waits s m x) (htold : x.cluster.Told) (hok : x.LeftAlone m nap a)
    (hstep : x.step o a = some y) : Waits s m y := by
  obtain ⟨ms, rfl, rfl⟩ | ⟨k, draw, x₁, c, rfl, -, hloop, hc, rfl⟩ |
    ⟨b, draw, c, rfl, -, -, hc, rfl⟩ := step_cases hstep
  · exact h
  · have htold₁ : x₁.cluster.Told := htold.run (cluster_runLoop hloop)
    exact (h.runLoop htold hloop).took htold₁ hc (Option.some_ne_none m).symm draw
  · have hsame : (if b = .restart m then x.now else x.woke m) = x.woke m := by
      refine if_neg ?_
      rintro rfl
      exact hok.2 rfl
    refine (h.took htold hc hok.2 draw).imp_right fun hx => ⟨hx.1, hx.2.1, hx.2.2.1, ?_⟩
    exact hsame.le.trans hx.2.2.2

/-- The loop of `m` keeps waking up. -/
theorem awake_step (h : x.now ≤ x.woke m + nap) (hok : x.LeftAlone m nap a)
    (hstep : x.step o a = some y) : y.now ≤ y.woke m + nap := by
  obtain ⟨ms, rfl, rfl⟩ | ⟨k, draw, x₁, c, rfl, -, hloop, hc, rfl⟩ |
    ⟨b, draw, c, rfl, -, -, hc, rfl⟩ := step_cases hstep
  · exact hok
  · change x₁.now ≤ Function.update x.woke k x.now m + nap
    rw [now_runLoop hloop]
    rcases eq_or_ne m k with rfl | hne
    · rw [Function.update_self]
      exact Nat.le_add_right _ _
    · rwa [Function.update_of_ne hne]
  · change x.now ≤ (if b = .restart m then x.now else x.woke m) + nap
    split
    · exact Nat.le_add_right _ _
    · exact h

omit [StateMachine σ] in
theorem LeftAlone.steady (h : s.LeftAlone m nap a) : s.Steady a := by
  cases a with
  | act => exact h.1
  | _ => trivial

end Timed

/-- **A silent leader is noticed**: a follower whose deadline nobody puts off, and whose
loop wakes up at least every `nap` milliseconds, has stood for election when the longest
timeout and a nap have passed. -/
theorem silence_starts_election (S : Setup) (o : TimerOptions) {draws : NodeId → Nat}
    (hdraws : ∀ m, o.Draws (draws m)) {s s' : Timed σ}
    (hreach : Run (Timed.step o) Timed.Steady (.start S draws) s) {m : NodeId} {nap : Nat}
    (hrole : (s.cluster.nodes m).role = .follower) (hnap : s.now ≤ s.woke m + nap)
    (hrun : Run (Timed.step o) (Timed.LeftAlone m nap) s s')
    (hlong : s.now + o.electionTimeoutMaxMs + nap < s'.now) :
    (s.cluster.nodes m).log.currentTerm < (s'.cluster.nodes m).log.currentTerm := by
  have hclocked : Timed.Clocked o s := (Timed.Clocked.start S hdraws).run hreach
  have htold : s.cluster.Told :=
    (Cluster.Told.start S).run (Timed.cluster_run (fun _ _ hok => hok) hreach)
  -- it waits as long as its term stays
  have hend : s'.cluster.Told ∧ s'.now ≤ s'.woke m + nap ∧ Timed.Waits s m s' := by
    refine hrun.invariant (P := fun x => x.cluster.Told ∧ x.now ≤ x.woke m + nap ∧
      Timed.Waits s m x) ⟨htold, hnap, .inr ⟨hrole, Nat.le_refl _, rfl,
        (hclocked.woke_le m).trans (Nat.le_max_left _ _)⟩⟩ ?_
    rintro x a y ⟨htold, hnap, hwaits⟩ hok hstep
    exact ⟨htold.run (Timed.cluster_step hstep hok.steady), Timed.awake_step hnap hok hstep,
      hwaits.step htold hok hstep⟩
  obtain ⟨-, hawake, hlt | ⟨-, -, -, hwoke⟩⟩ := hend
  · exact hlt
  · -- awake no later than the deadline and not asleep for longer than a nap, it has no time left
    have hdeadline := hclocked.deadline_le m
    have hmax : max s.now (s.electionDeadline m) ≤ s.now + o.electionTimeoutMaxMs :=
      Nat.max_le.mpr ⟨Nat.le_add_right _ _, hdeadline⟩
    omega

/-- Node 2 hears of nobody, and stands at its first waking after 150 milliseconds. -/
def standsAlone : Timed KvStore :=
  replay (Timed.step {}) (.start threeNodes fun _ => 150)
    [.pass 100, .wake 2 300, .pass 100, .wake 2 300, .pass 100, .wake 2 300, .pass 100,
      .wake 2 300, .pass 100]

theorem silence_starts_election_of_standsAlone :
    ((Timed.start threeNodes fun _ => 150 : Timed KvStore).cluster.nodes 2).log.currentTerm <
      (standsAlone.cluster.nodes 2).log.currentTerm := by
  have hrun : Run (Timed.step {}) (Timed.LeftAlone 2 100)
      (.start threeNodes fun _ => 150) standsAlone := run_replay (by decide +kernel)
  exact silence_starts_election threeNodes {} (fun _ => by decide) (.refl _) rfl (by decide) hrun
    (by decide +kernel)

end KvRaft
