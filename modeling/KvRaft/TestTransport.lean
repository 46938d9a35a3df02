import KvRaft.Electable
import KvRaft.Writes
import Mathlib.Algebra.Order.Floor.Ring
import Mathlib.Data.Rat.Floor

/-!
# KvRaft.TestTransport

The in-process network of `net/test_transport.h`: `FaultyNetwork` with its
partitions, dead nodes, loss, duplication and delay, its timers, its scheduler and
its pool of workers, and `TestTransport`, which hands the calls of a node to it.

Every thread is a list of small tasks (`Task`): a worker pops a job, asks whether
the two nodes reach each other, runs the handler, runs the callback and sends what
the callback has to send; a thread of a node sends the calls of its step one by
one.  Handlers and callbacks are atomic; all else interleaves.  A node that is
replaced by another object of the same id and the end of the network are left out.

* `FaultyNetwork.Follows` — a cluster stands next to the network: each call that a
  thread, a timer or the job queue holds is on its way in the cluster, each answer
  a worker holds is a reply there;
* `test_network_refines` — every run over the network is one of the cluster.
-/

namespace KvRaft

/-! ## Counting -/

section Counting

variable {α β : Type} [DecidableEq β] {l : List α} {i : Nat} {y : α}

theorem count_flatMap_set (h : l[i]? = some y) (f : α → List β) (x : α) (b : β) :
    ((l.set i x).flatMap f).count b + (f y).count b = (l.flatMap f).count b + (f x).count b := by
  induction l generalizing i with
  | nil => cases h
  | cons z l ih =>
      cases i with
      | zero =>
          cases h
          simp only [List.set_cons_zero, List.flatMap_cons, List.count_append]
          omega
      | succ i =>
          have hrest := ih h
          simp only [List.set_cons_succ, List.flatMap_cons, List.count_append]
          omega

theorem count_flatMap_eraseIdx (h : l[i]? = some y) (f : α → List β) (b : β) :
    ((l.eraseIdx i).flatMap f).count b + (f y).count b = (l.flatMap f).count b := by
  induction l generalizing i with
  | nil => cases h
  | cons z l ih =>
      cases i with
      | zero =>
          cases h
          simp only [List.eraseIdx_cons_zero, List.flatMap_cons, List.count_append]
          omega
      | succ i =>
          have hrest := ih h
          simp only [List.eraseIdx_cons_succ, List.flatMap_cons, List.count_append]
          omega

end Counting

/-! ## Who sends a call -/

variable {σ : Type}

/-- The call is one of the node's, in the life it has now. -/
def Call.SignedBy (call : Call) (nd : RaftNode σ) : Prop :=
  call.sender = nd.id ∧ call.incarnation = nd.incarnation

section Signature

variable [StateMachine σ]

namespace RaftNode

variable {n n' : RaftNode σ} {call : Call}

theorem Effects.signature (handled : RaftNode σ → Rpc → Prop) (h : Effects handled n n') :
    n'.id = n.id ∧ n'.incarnation = n.incarnation :=
  h.invariant (P := fun x => x.id = n.id ∧ x.incarnation = n.incarnation) ⟨rfl, rfl⟩
    fun _ _ hx he => ⟨he.id.trans hx.1, he.incarnation.trans hx.2⟩

theorem signedBy_of_mem_broadcast (h : call ∈ n.broadcastAppendEntries) : call.SignedBy n := by
  obtain ⟨-, peer, rfl⟩ := of_mem_broadcast h
  exact ⟨rfl, rfl⟩

theorem signedBy_of_mem_becomeLeader (h : call ∈ n.becomeLeader.2) : call.SignedBy n := by
  have hsame : n.becomeLeader.1.id = n.id ∧ n.becomeLeader.1.incarnation = n.incarnation :=
    Effects.signature (fun _ _ => True) n.becomeLeader_effects
  have hsigned := signedBy_of_mem_broadcast (n.becomeLeader_sent call h)
  exact ⟨hsigned.1.trans hsame.1, hsigned.2.trans hsame.2⟩

theorem signedBy_of_mem_becomeCandidate (h : call ∈ n.becomeCandidate.2) : call.SignedBy n := by
  have hstands := n.stands_becomeCandidate
  generalize n.becomeCandidate.1 = n', n.becomeCandidate.2 = sent at h hstands
  cases hstands with
  | outside => exact absurd h List.not_mem_nil
  | alone => exact signedBy_of_mem_becomeLeader (n := n.candidacy) h
  | ask =>
      obtain ⟨peer, -, rfl⟩ := List.mem_map.mp h
      exact ⟨rfl, rfl⟩

theorem signedBy_of_mem_callback {peer : NodeId} {ans : Answer}
    (h : call ∈ (n.callback peer ans).2) : call.SignedBy n := by
  have hcalls := n.callsBack_callback peer ans
  generalize (n.callback peer ans).1 = n', (n.callback peer ans).2 = sent at h hcalls
  cases hcalls with
  | win req => exact signedBy_of_mem_becomeLeader (n := n.countVote req.term) h
  | ignore | follow | count | advance | track => exact absurd h List.not_mem_nil

end RaftNode

namespace Cluster

variable {c c' : Cluster σ} {a : Action} {n : NodeId} {nd : RaftNode σ} {sent : List Call}

theorem ownStep_signature (h : c.ownStep a = some (n, nd, sent)) (hrestart : ∀ m, a ≠ .restart m) :
    (nd.id = (c.nodes n).id ∧ nd.incarnation = (c.nodes n).incarnation) ∧
      ∀ call ∈ sent, call.SignedBy (c.nodes n) := by
  let handled : RaftNode σ → Rpc → Prop := fun _ _ => True
  obtain ⟨rfl, -⟩ | ⟨-, -, rfl, rfl⟩ | ⟨rfl, rfl⟩ | ⟨data, type, rfl, rfl⟩ | ⟨rfl, rfl⟩ |
    ⟨rfl, rfl⟩ := ownStep_cases h
  · exact absurd rfl (hrestart n)
  · exact ⟨RaftNode.Effects.signature handled (RaftNode.becomeCandidate_effects _),
      fun call => RaftNode.signedBy_of_mem_becomeCandidate⟩
  · exact ⟨⟨rfl, rfl⟩, fun call => RaftNode.signedBy_of_mem_broadcast⟩
  · exact ⟨RaftNode.Effects.signature handled (RaftNode.propose_effects _ data type),
      fun _ hcall => absurd hcall List.not_mem_nil⟩
  · exact ⟨RaftNode.Effects.signature handled (.single (.compact _)),
      fun _ hcall => absurd hcall List.not_mem_nil⟩
  · exact ⟨RaftNode.Effects.signature handled (RaftNode.maybeSnapshot_effects _),
      fun _ hcall => absurd hcall List.not_mem_nil⟩

/-- What a node does on its own depends on nothing else. -/
theorem ownStep_congr (h : c.ownStep a = some (n, nd, sent)) (hn : c'.nodes n = c.nodes n) :
    c'.ownStep a = some (n, nd, sent) := by
  cases a with
  | timeout m =>
      obtain ⟨hrole, h⟩ := Option.ite_none_left_eq_some.mp h
      obtain ⟨rfl, hout⟩ := Prod.mk.inj (Option.some.inj h)
      rw [ownStep, hn, if_neg hrole, hout]
  | heartbeat m | propose m | addServer m | removeServer m | readBarrier m | forceSnapshot m
  | maybeSnapshot m | restart m =>
      obtain ⟨rfl, hout⟩ := Prod.mk.inj (Option.some.inj h)
      rw [ownStep, hn, hout]
  | deliver | copy | copySilent | redeliver | reply => cases h

theorem step_of_ownStep (h : c.ownStep a = some (n, nd, sent)) (hn : n ∈ c.members) :
    c.step a = some (c.put n nd sent) := by
  cases a with
  | deliver | copy | copySilent | redeliver | reply => cases h
  | _ => simp only [step, h, Option.bind_eq_bind, Option.bind_some, if_pos hn]

/-- The nodes that take part in a step: who acts, and between whom a message goes. -/
def ends (c : Cluster σ) : Action → List NodeId
  | .timeout n | .heartbeat n | .propose n _ | .addServer n _ _ | .removeServer n _
  | .readBarrier n | .forceSnapshot n | .maybeSnapshot n | .restart n => [n]
  | .deliver i | .copy i | .copySilent i =>
      match c.calls[i]? with
      | some call => [call.sender, call.target]
      | none => []
  | .redeliver i =>
      match c.copies[i]? with
      | some call => [call.sender, call.target]
      | none => []
  | .reply i =>
      match c.replies[i]? with
      | some r => [r.sender, r.target]
      | none => []

/-- Only nodes of `P` take part. -/
def Among (P : NodeId → Prop) (c : Cluster σ) (a : Action) : Prop := ∀ n ∈ c.ends a, P n

theorem ends_of_ownStep (h : c.ownStep a = some (n, nd, sent)) : c.ends a = [n] := by
  cases a with
  | timeout m =>
      obtain ⟨-, h⟩ := Option.ite_none_left_eq_some.mp h
      obtain ⟨rfl, -⟩ := Prod.mk.inj (Option.some.inj h)
      rfl
  | heartbeat m | propose m | addServer m | removeServer m | readBarrier m | forceSnapshot m
  | maybeSnapshot m | restart m =>
      obtain ⟨rfl, -⟩ := Prod.mk.inj (Option.some.inj h)
      rfl
  | deliver | copy | copySilent | redeliver | reply => cases h

theorem votesOnce_of_ownStep (h : c.ownStep a = some (n, nd, sent)) (c' : Cluster σ) :
    c'.VotesOnce a := by
  cases a with
  | copy => cases h
  | _ => rfl

omit [StateMachine σ] in
theorem count_eraseIdx {α : Type} [DecidableEq α] {l : List α} {i : Nat} {y : α}
    (h : l[i]? = some y) (x : α) : (l.eraseIdx i).count x + [y].count x = l.count x := by
  have hperm := (perm_cons_eraseIdx h).count_eq x
  rw [← List.singleton_append, List.count_append] at hperm
  omega

theorem exists_copy {call : Call} (hcall : call ∈ c.calls) :
    ∃ i, (call.isVote = false → c.VotesOnce (.copy i)) ∧
      c.ends (.copy i) = [call.sender, call.target] ∧
      c.step (.copy i) = some (c.copyCall call) := by
  obtain ⟨i, hi⟩ := List.getElem?_of_mem hcall
  have honce : call.isVote = false → c.VotesOnce (.copy i) := fun hplain => by
    rw [VotesOnce, repeatsVote, hi]
    exact hplain
  have hcopy : c.step (.copy i) = some (c.copyCall call) := by
    rw [step, hi]
    rfl
  exact ⟨i, honce, by rw [ends, hi], hcopy⟩

theorem exists_receive {call : Call} (hcall : call ∈ c.calls) (ht : call.target ∈ c.members) :
    ∃ i rest, c.Steady (.deliver i) ∧ c.ends (.deliver i) = [call.sender, call.target] ∧
      c.step (.deliver i) = some (c.receive call rest) ∧
      ∀ x, rest.count x + [call].count x = c.calls.count x := by
  obtain ⟨i, hi⟩ := List.getElem?_of_mem hcall
  have hdeliver : c.step (.deliver i) = some (c.receive call (c.calls.eraseIdx i)) := by
    rw [step, hi]
    exact if_pos ht
  exact ⟨i, _, ⟨rfl, rfl⟩, by rw [ends, hi], hdeliver, count_eraseIdx hi⟩

theorem exists_callback {r : Reply} (hr : r ∈ c.replies) (hs : r.sender ∈ c.members)
    (hlife : (c.nodes r.sender).incarnation = r.incarnation) :
    ∃ i rest, c.Steady (.reply i) ∧ c.ends (.reply i) = [r.sender, r.target] ∧
      c.step (.reply i) = some
        { c.put r.sender ((c.nodes r.sender).callback r.target r.answer).1
          ((c.nodes r.sender).callback r.target r.answer).2 with replies := rest } ∧
      ∀ x, rest.count x + [r].count x = c.replies.count x := by
  obtain ⟨i, hi⟩ := List.getElem?_of_mem hr
  have hreply : c.step (.reply i) = some
      { c.put r.sender ((c.nodes r.sender).callback r.target r.answer).1
        ((c.nodes r.sender).callback r.target r.answer).2 with
          replies := c.replies.eraseIdx i } := by
    rw [step, hi]
    exact if_pos ⟨hs, hlife⟩
  exact ⟨i, _, ⟨rfl, rfl⟩, by rw [ends, hi], hreply, count_eraseIdx hi⟩

end Cluster

end Signature

/-! ## The network -/

/-- A number that `roll()` may return. -/
abbrev Roll := { r : ℚ // 0 ≤ r ∧ r < 1 }

/-- The numbers one call of `deliver` draws. -/
structure Rolls where
  drop : Roll
  duplicate : Roll
  delay : Roll

/-- What `deliver` is given: a call, and whether `find` knew its target when it was
sent. -/
structure Delivery where
  call : Call
  found : Bool
  deriving DecidableEq

/-- What a thread is about to do. -/
inductive Task
  /-- a worker has popped a job -/
  | took (job : Delivery)
  /-- its two nodes reach each other -/
  | passed (call : Call)
  /-- its target has answered -/
  | answered (reply : Reply)
  /-- calls are handed to the transport one by one -/
  | sending (calls : List Call)
  deriving DecidableEq

/-- The calls the thread still holds. -/
def Task.calls : Task → List Call
  | .took job => [job.call]
  | .passed call => [call]
  | .answered _ => []
  | .sending calls => calls

/-- The answers whose callback it still has to run. -/
def Task.replies : Task → List Reply
  | .answered reply => [reply]
  | _ => []

structure NetThread where
  /-- it is one of the network's workers -/
  pooled : Bool
  task : Task
  deriving DecidableEq

structure FaultyNetwork (σ : Type) where
  /-- the nodes of the test -/
  members : List NodeId
  nodes : NodeId → RaftNode σ
  /-- the keys of `nodes_` -/
  registered : List NodeId
  partitioned : Bool
  groupA : List NodeId
  dead : List NodeId
  dropRate : ℚ
  duplicateRate : ℚ
  delayMinMs : Int
  delayMaxMs : Int
  now : Int
  /-- the multimap `timers_`, in its order -/
  timers : List (Int × Delivery)
  jobQueue : List Delivery
  workers : Nat
  threads : List NetThread

namespace FaultyNetwork

inductive Action
  /-- a thread of a node takes a step of its own -/
  | node (a : KvRaft.Action)
  /-- the thread at a place of the list goes on with its task -/
  | run (i : Nat) (rolls : Rolls)
  /-- a worker pops a job -/
  | pop
  /-- the scheduler moves the first timer to the job queue -/
  | schedule
  | tick (ms : Nat)
  | registerNode (id : NodeId)
  | partition (groupA : List NodeId)
  | healPartition
  | setDropRate (p : ℚ)
  | setDuplicateRate (p : ℚ)
  | setDelayMs (minMs maxMs : Int)
  | killNode (id : NodeId)
  | reviveNode (id : NodeId)

def reachable (net : FaultyNetwork σ) (a b : NodeId) : Bool :=
  if a ∈ net.dead ∨ b ∈ net.dead then false
  else if net.partitioned = false then true
  else decide (a ∈ net.groupA) == decide (b ∈ net.groupA)

/-- `timers_.emplace`: behind the timers that fire no later. -/
def emplace (timers : List (Int × Delivery)) (fireAt : Int) (job : Delivery) :
    List (Int × Delivery) :=
  timers.takeWhile (·.1 ≤ fireAt) ++ (fireAt, job) :: timers.dropWhile (·.1 ≤ fireAt)

/-- How often a call that is not lost is scheduled. -/
def copies (net : FaultyNetwork σ) (rolls : Rolls) : Nat :=
  if rolls.duplicate.val < net.duplicateRate then 2 else 1

def deliver (net : FaultyNetwork σ) (rolls : Rolls) (job : Delivery) : FaultyNetwork σ :=
  if rolls.drop.val < net.dropRate then net
  else
    let delay :=
      if net.delayMinMs ≥ net.delayMaxMs then net.delayMinMs
      else net.delayMinMs + ⌊rolls.delay.val * (net.delayMaxMs - net.delayMinMs)⌋
    { net with
      timers := (emplace · (net.now + delay) job)^[net.copies rolls] net.timers }

/-- `TestTransport::send*`; a call that fails at once runs its callback with
`ok == false`, which returns. -/
def send (net : FaultyNetwork σ) (rolls : Rolls) (call : Call) : FaultyNetwork σ :=
  if net.reachable call.sender call.target then
    net.deliver rolls ⟨call, decide (call.target ∈ net.registered)⟩
  else net

/-- The thread at place `i` goes on to `task`. -/
def goOn (net : FaultyNetwork σ) (i : Nat) (thread : NetThread) (task : Task) : FaultyNetwork σ :=
  { net with threads := net.threads.set i { thread with task } }

/-- The thread at place `i` is done. -/
def finish (net : FaultyNetwork σ) (i : Nat) : FaultyNetwork σ :=
  { net with threads := net.threads.eraseIdx i }

def setNode (net : FaultyNetwork σ) (n : NodeId) (nd : RaftNode σ) : FaultyNetwork σ :=
  { net with nodes := Function.update net.nodes n nd }

/-! ## What is on its way -/

/-- The calls that a thread, a timer or the job queue holds. -/
def pending (net : FaultyNetwork σ) : List Call :=
  net.threads.flatMap (·.task.calls) ++
    (net.timers.map (·.2.call) ++ net.jobQueue.map Delivery.call)

/-- The answers whose callbacks have not run. -/
def answers (net : FaultyNetwork σ) : List Reply :=
  net.threads.flatMap (·.task.replies)

/-- The nodes with what is on its way between them. -/
def cluster (net : FaultyNetwork σ) : Cluster σ :=
  ⟨net.members, net.nodes, net.pending, [], net.answers⟩

/-! ## Steps -/

variable [StateMachine σ]

/-- The network before anything is registered. -/
def start (S : Setup) (workers : Nat) : FaultyNetwork σ where
  members := S.members
  nodes := (S.start : Cluster σ).nodes
  registered := []
  partitioned := false
  groupA := []
  dead := []
  dropRate := 0
  duplicateRate := 0
  delayMinMs := 0
  delayMaxMs := 0
  now := 0
  timers := []
  jobQueue := []
  workers := workers
  threads := []

/-- What a thread does next. -/
def runTask (net : FaultyNetwork σ) (i : Nat) (rolls : Rolls) (thread : NetThread) :
    FaultyNetwork σ :=
  match thread.task with
  | .took job =>
      if job.found && net.reachable job.call.sender job.call.target then
        net.goOn i thread (.passed job.call)
      else net.finish i
  | .passed call =>
      let (nd, answer) := (net.nodes call.target).handle call.rpc
      (net.setNode call.target nd).goOn i thread
        (.answered ⟨call.sender, call.target, call.incarnation, answer⟩)
  | .answered r =>
      let (nd, sent) := (net.nodes r.sender).callback r.target r.answer
      (net.setNode r.sender nd).goOn i thread (.sending sent)
  | .sending [] => net.finish i
  | .sending (call :: calls) => (net.send rolls call).goOn i thread (.sending calls)

def step (net : FaultyNetwork σ) : Action → Option (FaultyNetwork σ)
  | .node (.restart _) => none
  | .node a => do
      -- the step of a node as in the cluster; a thread is left with what it sends
      let (n, nd, sent) ← net.cluster.ownStep a
      if n ∈ net.members then
        some { net.setNode n nd with threads := net.threads ++ [⟨false, .sending sent⟩] }
      else none
  | .run i rolls => net.threads[i]?.map (net.runTask i rolls)
  | .pop =>
      match net.jobQueue with
      | [] => none
      | job :: jobs =>
          -- one of the workers is free
          if net.threads.countP NetThread.pooled < net.workers then
            some { net with jobQueue := jobs, threads := net.threads ++ [⟨true, .took job⟩] }
          else none
  | .schedule =>
      match net.timers with
      | [] => none
      | (fireAt, job) :: timers =>
          -- the scheduler waits until the job is due
          if fireAt ≤ net.now then some { net with timers, jobQueue := net.jobQueue ++ [job] }
          else none
  | .tick ms => some { net with now := net.now + ms }
  | .registerNode id =>
      if id ∈ net.members then some { net with registered := id :: net.registered } else none
  | .partition groupA => some { net with partitioned := true, groupA }
  | .healPartition => some { net with partitioned := false }
  | .setDropRate p => some { net with dropRate := p }
  | .setDuplicateRate p => some { net with duplicateRate := p }
  | .setDelayMs minMs maxMs => some { net with delayMinMs := minMs, delayMaxMs := maxMs }
  | .killNode id => some { net with dead := id :: net.dead }
  | .reviveNode id => some { net with dead := net.dead.filter (· ≠ id) }

/-! ## What a step does -/

section Pending

omit [StateMachine σ]

variable {net : FaultyNetwork σ} {i : Nat} {th : NetThread}

theorem count_pending_goOn (h : net.threads[i]? = some th) (task : Task) (x : Call) :
    (net.goOn i th task).pending.count x + th.task.calls.count x =
      net.pending.count x + task.calls.count x := by
  have hset := count_flatMap_set h (·.task.calls) { th with task } x
  simp only [pending, goOn, List.count_append] at hset ⊢
  omega

theorem count_answers_goOn (h : net.threads[i]? = some th) (task : Task) (r : Reply) :
    (net.goOn i th task).answers.count r + th.task.replies.count r =
      net.answers.count r + task.replies.count r :=
  count_flatMap_set h (·.task.replies) { th with task } r

theorem count_pending_finish (h : net.threads[i]? = some th) (x : Call) :
    (net.finish i).pending.count x + th.task.calls.count x = net.pending.count x := by
  have herase := count_flatMap_eraseIdx h (·.task.calls) x
  simp only [pending, finish, List.count_append] at herase ⊢
  omega

theorem count_answers_finish (h : net.threads[i]? = some th) (r : Reply) :
    (net.finish i).answers.count r + th.task.replies.count r = net.answers.count r :=
  count_flatMap_eraseIdx h (·.task.replies) r

theorem count_emplace (timers : List (Int × Delivery)) (fireAt : Int) (job : Delivery) (x : Call) :
    ((emplace timers fireAt job).map (·.2.call)).count x =
      (timers.map (·.2.call)).count x + [job.call].count x := by
  have hsplit := congrArg (fun l => (l.map (·.2.call)).count x)
    (List.takeWhile_append_dropWhile (p := fun t : Int × Delivery => decide (t.1 ≤ fireAt))
      (l := timers))
  simp only [emplace, List.map_append, List.map_cons, List.count_append, List.count_cons,
    List.count_nil] at hsplit ⊢
  omega

theorem count_emplaces (timers : List (Int × Delivery)) (fireAt : Int) (job : Delivery) (k : Nat)
    (x : Call) :
    (((emplace · fireAt job)^[k] timers).map (·.2.call)).count x =
      (timers.map (·.2.call)).count x + k * [job.call].count x := by
  induction k with
  | zero => rw [Nat.zero_mul]; rfl
  | succ k ih => rw [Function.iterate_succ_apply', count_emplace, ih, Nat.succ_mul, Nat.add_assoc]

/-- A call that is handed to the network is lost, scheduled, or scheduled twice. -/
theorem count_pending_send (net : FaultyNetwork σ) (rolls : Rolls) (call : Call) :
    ∃ k ≤ net.copies rolls, ∀ x,
      (net.send rolls call).pending.count x = net.pending.count x + k * [call].count x := by
  unfold send
  split
  · unfold deliver
    split
    · exact ⟨0, Nat.zero_le _, fun x => by omega⟩
    · refine ⟨net.copies rolls, Nat.le_refl _, fun x => ?_⟩
      simp only [pending, List.count_append, count_emplaces]
      omega
  · exact ⟨0, Nat.zero_le _, fun x => by omega⟩

end Pending

/-- The action proposes a configuration. -/
def Action.changesMembership : Action → Bool
  | .node act => act.changesMembership
  | _ => false

/-- The step hands a request for a vote to the network that will be copied. -/
def repeatsVote (net : FaultyNetwork σ) : Action → Bool
  | .run i rolls =>
      match net.threads[i]? with
      | some ⟨_, .sending (call :: _)⟩ =>
          call.isVote && decide (rolls.duplicate.val < net.duplicateRate)
      | _ => false
  | _ => false

/-- What a step does to the nodes and to what is on its way between them. -/
inductive Moves (net : FaultyNetwork σ) (a : Action) (net' : FaultyNetwork σ) : Prop
  | quiet (hnodes : net'.nodes = net.nodes)
      (hcalls : ∀ x, net'.pending.count x ≤ net.pending.count x)
      (hreplies : ∀ r, net'.answers.count r ≤ net.answers.count r)
  | own (act : KvRaft.Action) (n : NodeId) (nd : RaftNode σ) (sent : List Call)
      (hact : a = .node act) (hown : net.cluster.ownStep act = some (n, nd, sent))
      (hn : n ∈ net.members) (hrestart : ∀ m, act ≠ .restart m)
      (hnodes : net'.nodes = Function.update net.nodes n nd)
      (hcalls : ∀ x, net'.pending.count x = net.pending.count x + sent.count x)
      (hreplies : ∀ r, net'.answers.count r = net.answers.count r)
  | twice (call : Call) (hvote : call.isVote = true → net.repeatsVote a = true)
      (hmem : call ∈ net.pending) (hnodes : net'.nodes = net.nodes)
      (hcalls : ∀ x, net'.pending.count x = net.pending.count x + [call].count x)
      (hreplies : ∀ r, net'.answers.count r = net.answers.count r)
  | handled (th : NetThread) (call : Call) (hth : th ∈ net.threads) (htask : th.task = .passed call)
      (hnodes : net'.nodes =
        Function.update net.nodes call.target ((net.nodes call.target).handle call.rpc).1)
      (hcalls : ∀ x, net'.pending.count x + [call].count x = net.pending.count x)
      (hreplies : ∀ r, net'.answers.count r = net.answers.count r +
        [(⟨call.sender, call.target, call.incarnation,
          ((net.nodes call.target).handle call.rpc).2⟩ : Reply)].count r)
  | calledBack (th : NetThread) (r : Reply) (hth : th ∈ net.threads)
      (htask : th.task = .answered r)
      (hnodes : net'.nodes = Function.update net.nodes r.sender
        ((net.nodes r.sender).callback r.target r.answer).1)
      (hcalls : ∀ x, net'.pending.count x = net.pending.count x +
        ((net.nodes r.sender).callback r.target r.answer).2.count x)
      (hreplies : ∀ x, net'.answers.count x + [r].count x = net.answers.count x)

section Moves

variable {net net' : FaultyNetwork σ} {i : Nat} {th : NetThread}

/-- A thread that hands a call to the network. -/
theorem moves_send {call : Call} {calls : List Call} {rolls : Rolls}
    (h : net.threads[i]? = some th) (htask : th.task = .sending (call :: calls)) :
    Moves net (.run i rolls) ((net.send rolls call).goOn i th (.sending calls)) := by
  -- sending touches neither the nodes nor the threads, only the timers
  have hkept : (net.send rolls call).nodes = net.nodes ∧
      (net.send rolls call).threads = net.threads := by
    unfold send deliver
    split
    · split <;> exact ⟨rfl, rfl⟩
    · exact ⟨rfl, rfl⟩
  have hth : (net.send rolls call).threads[i]? = some th := by rw [hkept.2, h]
  -- `k` copies go to the timers, and the thread has one less to send
  obtain ⟨k, hk, hsend⟩ := net.count_pending_send rolls call
  have hcalls : ∀ x, ((net.send rolls call).goOn i th (.sending calls)).pending.count x +
      [call].count x = net.pending.count x + k * [call].count x := by
    intro x
    have hgo := count_pending_goOn hth (.sending calls) x
    have hcons : (call :: calls).count x = calls.count x + [call].count x := by
      rw [← List.singleton_append, List.count_append, Nat.add_comm]
    simp only [htask, Task.calls, hsend, hcons] at hgo
    omega
  -- no answer comes or goes
  have hreplies : ∀ r, ((net.send rolls call).goOn i th (.sending calls)).answers.count r =
      net.answers.count r := by
    intro r
    have hgo := count_answers_goOn hth (.sending calls) r
    have hsame : (net.send rolls call).answers = net.answers := by
      unfold answers
      rw [hkept.2]
    simpa only [htask, Task.replies, List.count_nil, Nat.add_zero, hsame] using hgo
  -- two copies are a copy in the cluster, one is what was there, none is a loss
  by_cases hdup : rolls.duplicate.val < net.duplicateRate ∧ k = 2
  · refine .twice call (fun hvote => ?_) ?_ hkept.1 (fun x => ?_) hreplies
    · obtain ⟨pooled, task⟩ := th
      cases htask
      simp only [repeatsVote, h, hvote, hdup.1, decide_true, Bool.and_self]
    · have hmem : call ∈ th.task.calls := by
        rw [htask]
        exact List.mem_cons_self
      exact List.mem_append_left _ (List.mem_flatMap.mpr ⟨th, List.mem_of_getElem? h, hmem⟩)
    · have := hcalls x
      rw [hdup.2] at this
      omega
  · -- without the roll for a duplicate there is at most one copy
    have hone : k ≤ 1 := by
      unfold copies at hk
      split at hk
      · next hlt =>
        have hne : k ≠ 2 := fun htwo => hdup ⟨hlt, htwo⟩
        omega
      · exact hk
    refine .quiet hkept.1 (fun x => ?_) fun r => Nat.le_of_eq (hreplies r)
    have hle : k * [call].count x ≤ 1 * [call].count x := Nat.mul_le_mul_right _ hone
    have := hcalls x
    omega

theorem moves_runTask (rolls : Rolls) (h : net.threads[i]? = some th) :
    Moves net (.run i rolls) (net.runTask i rolls th) := by
  have hmem := List.mem_of_getElem? h
  unfold runTask
  split
  · next job htask =>
    -- a worker with a job: the call passes the network or the job ends here
    split
    · refine .quiet rfl (fun x => ?_) fun r => ?_
      · have hgo := count_pending_goOn h (.passed job.call) x
        simp only [htask, Task.calls] at hgo
        omega
      · have hgo := count_answers_goOn h (.passed job.call) r
        simp only [htask, Task.replies] at hgo
        omega
    · refine .quiet rfl (fun x => ?_) fun r => ?_
      · have hend := count_pending_finish h x
        omega
      · have hend := count_answers_finish h r
        omega
  · next call htask =>
    -- the handler of the receiver runs, and its answer takes the place of the call
    refine .handled th call hmem htask rfl (fun x => ?_) fun r => ?_
    · have hgo := count_pending_goOn h
        (.answered ⟨call.sender, call.target, call.incarnation,
          ((net.nodes call.target).handle call.rpc).2⟩) x
      rw [htask] at hgo
      exact hgo
    · have hgo := count_answers_goOn h
        (.answered ⟨call.sender, call.target, call.incarnation,
          ((net.nodes call.target).handle call.rpc).2⟩) r
      rw [htask] at hgo
      exact hgo
  · next r htask =>
    -- the callback of the sender runs, and the thread goes on with what that sends
    refine .calledBack th r hmem htask rfl (fun x => ?_) fun x => ?_
    · have hgo := count_pending_goOn h
        (.sending ((net.nodes r.sender).callback r.target r.answer).2) x
      rw [htask] at hgo
      exact hgo
    · have hgo := count_answers_goOn h
        (.sending ((net.nodes r.sender).callback r.target r.answer).2) x
      rw [htask] at hgo
      exact hgo
  · next htask =>
    -- everything was sent
    refine .quiet rfl (fun x => ?_) fun r => ?_
    · have hend := count_pending_finish h x
      omega
    · have hend := count_answers_finish h r
      omega
  · next call calls htask => exact moves_send h htask

/-- A node takes a step of its own, and a thread is left that sends its calls. -/
theorem step_own {act : KvRaft.Action} (h : net.step (.node act) = some net') :
    ∃ n nd sent, net.cluster.ownStep act = some (n, nd, sent) ∧ n ∈ net.members ∧
      (∀ m, act ≠ .restart m) ∧ net' = { net.setNode n nd with
        threads := net.threads ++ [⟨false, .sending sent⟩] } := by
  have hrestart : ∀ m, act ≠ .restart m := by
    rintro m rfl
    cases h
  have hdo : (do let (n, nd, sent) ← net.cluster.ownStep act
                 if n ∈ net.members then
                   some { net.setNode n nd with
                     threads := net.threads ++ [⟨false, .sending sent⟩] }
                 else none) = some net' := by
    rw [← h]
    cases act with
    | restart m => exact absurd rfl (hrestart m)
    | _ => rfl
  obtain ⟨⟨n, nd, sent⟩, hown, h⟩ := Option.bind_eq_some_iff.mp hdo
  obtain ⟨hn, h⟩ := Option.ite_none_right_eq_some.mp h
  exact ⟨n, nd, sent, hown, hn, hrestart, (Option.some.inj h).symm⟩

theorem step_moves {a : Action} (h : net.step a = some net') : Moves net a net' := by
  -- what only changes the network's own settings is quiet
  have hsame : ∀ {net' : FaultyNetwork σ}, net'.nodes = net.nodes → net'.threads = net.threads →
      net'.timers = net.timers → net'.jobQueue = net.jobQueue → Moves net a net' := by
    intro net' hnodes hthreads htimers hjobs
    refine .quiet hnodes (fun x => ?_) fun r => ?_
    · rw [pending, hthreads, htimers, hjobs, pending]
    · rw [answers, hthreads, answers]
  cases a with
  | node act =>
      obtain ⟨n, nd, sent, hown, hn, hrestart, rfl⟩ := step_own h
      refine .own act n nd sent rfl hown hn hrestart rfl (fun x => ?_) fun r => ?_
      · simp only [pending, setNode, List.flatMap_append, List.count_append, List.flatMap_cons,
          List.flatMap_nil, List.append_nil, Task.calls]
        omega
      · simp only [answers, List.flatMap_append, List.flatMap_cons, List.flatMap_nil,
          List.append_nil, Task.replies]
  | run i rolls =>
      obtain ⟨th, hth, rfl⟩ := Option.map_eq_some_iff.mp h
      exact moves_runTask rolls hth
  -- the call moves from the queue to a worker
  | pop =>
      simp only [step] at h
      split at h
      · cases h
      · next job jobs hjobs =>
        obtain ⟨-, h⟩ := Option.ite_none_right_eq_some.mp h
        cases h
        refine .quiet rfl (fun x => ?_) fun r => ?_
        · simp only [pending, hjobs, List.flatMap_append, List.count_append, List.flatMap_cons,
            List.flatMap_nil, List.append_nil, Task.calls, List.map_cons, List.count_cons,
            List.count_nil]
          omega
        · simp only [answers, List.flatMap_append, List.flatMap_cons, List.flatMap_nil,
            List.append_nil, Task.replies, le_refl]
  -- the call moves from the timers to the queue
  | schedule =>
      simp only [step] at h
      split at h
      · cases h
      · next fireAt job timers htimers =>
        obtain ⟨-, h⟩ := Option.ite_none_right_eq_some.mp h
        cases h
        refine .quiet rfl (fun x => ?_) fun r => Nat.le_refl _
        simp only [pending, htimers, List.count_append, List.map_cons, List.map_append,
          List.map_nil, List.count_cons, List.count_nil]
        omega
  | registerNode id =>
      obtain ⟨-, h⟩ := Option.ite_none_right_eq_some.mp h
      cases h
      exact hsame rfl rfl rfl rfl
  | tick | partition | healPartition | setDropRate | setDuplicateRate | setDelayMs | killNode
  | reviveNode =>
      cases h
      exact hsame rfl rfl rfl rfl

theorem Moves.signature {a : Action} (h : Moves net a net') (n : NodeId) :
    (net'.nodes n).id = (net.nodes n).id ∧
      (net'.nodes n).incarnation = (net.nodes n).incarnation := by
  -- every change of a node goes through one of its functions, which keep the signature
  have hupdate : ∀ m nd, nd.id = (net.nodes m).id ∧ nd.incarnation = (net.nodes m).incarnation →
      net'.nodes = Function.update net.nodes m nd → (net'.nodes n).id = (net.nodes n).id ∧
        (net'.nodes n).incarnation = (net.nodes n).incarnation := by
    intro m nd hnd hnodes
    by_cases hn : n = m
    · subst hn
      rwa [hnodes, Function.update_self]
    · rw [hnodes, Function.update_of_ne hn]
      exact ⟨rfl, rfl⟩
  cases h with
  | quiet hnodes | twice _ _ _ hnodes =>
      rw [hnodes]
      exact ⟨rfl, rfl⟩
  | own act m nd sent _ hown _ hrestart hnodes =>
      exact hupdate m nd (Cluster.ownStep_signature hown hrestart).1 hnodes
  | handled th call _ _ hnodes =>
      exact hupdate _ _ (RaftNode.Effects.signature (fun _ _ => True)
        (RaftNode.handle_effects _ trivial)) hnodes
  | calledBack th r _ _ hnodes =>
      exact hupdate _ _ (RaftNode.Effects.signature (fun _ _ => True)
        (RaftNode.callback_effects _ _ _)) hnodes

end Moves

end FaultyNetwork

/-! ## What the network holds -/

/-- The call comes from one of the processes; none has restarted. -/
def Call.Own (call : Call) (members : List NodeId) : Prop :=
  call.sender ∈ members ∧ call.incarnation = 0

/-- A job that found its target found one of the processes. -/
def Delivery.Sound (job : Delivery) (members : List NodeId) : Prop :=
  job.call.Own members ∧ (job.found = true → job.call.target ∈ members)

def Task.Sound (members : List NodeId) : Task → Prop
  | .took job => job.Sound members
  | .passed call => call.Own members ∧ call.target ∈ members
  | .answered r => r.sender ∈ members ∧ r.incarnation = 0
  | .sending calls => ∀ call ∈ calls, call.Own members

/-- A call that was let through, or its answer, does not go from one side to the
other. -/
def Task.Settled (P : NodeId → Prop) : Task → Prop
  | .passed call => P call.sender ↔ P call.target
  | .answered r => P r.sender ↔ P r.target
  | .took _ | .sending _ => True

namespace FaultyNetwork

variable [StateMachine σ]

structure Sound (net : FaultyNetwork σ) : Prop where
  id : ∀ n, (net.nodes n).id = n
  incarnation : ∀ n, (net.nodes n).incarnation = 0
  registered : ∀ n ∈ net.registered, n ∈ net.members
  threads : ∀ th ∈ net.threads, th.task.Sound net.members
  timers : ∀ t ∈ net.timers, t.2.Sound net.members
  jobQueue : ∀ job ∈ net.jobQueue, job.Sound net.members

def Settled (P : NodeId → Prop) (net : FaultyNetwork σ) : Prop :=
  ∀ th ∈ net.threads, th.task.Settled P

variable {net net' : FaultyNetwork σ} {P : NodeId → Prop}

/-- A task that a thread gets in a step. -/
inductive NewTask (net : FaultyNetwork σ) : Task → Prop
  | sent (act : KvRaft.Action) (n : NodeId) (nd : RaftNode σ) (sent : List Call)
      (hown : net.cluster.ownStep act = some (n, nd, sent)) (hn : n ∈ net.members)
      (hrestart : ∀ m, act ≠ .restart m) : NewTask net (.sending sent)
  | took (job : Delivery) (hjob : job ∈ net.jobQueue) : NewTask net (.took job)
  | passed (th : NetThread) (job : Delivery) (hth : th ∈ net.threads) (htask : th.task = .took job)
      (hfound : job.found = true) (hreach : net.reachable job.call.sender job.call.target = true) :
      NewTask net (.passed job.call)
  | answered (th : NetThread) (call : Call) (hth : th ∈ net.threads)
      (htask : th.task = .passed call) (answer : Answer) :
      NewTask net (.answered ⟨call.sender, call.target, call.incarnation, answer⟩)
  | calledBack (th : NetThread) (r : Reply) (hth : th ∈ net.threads)
      (htask : th.task = .answered r) :
      NewTask net (.sending ((net.nodes r.sender).callback r.target r.answer).2)
  | rest (th : NetThread) (call : Call) (calls : List Call) (hth : th ∈ net.threads)
      (htask : th.task = .sending (call :: calls)) : NewTask net (.sending calls)

/-- Where what the network holds after a step comes from. -/
structure Comes (net net' : FaultyNetwork σ) : Prop where
  members : net'.members = net.members
  registered : ∀ n ∈ net'.registered, n ∈ net.registered ∨ n ∈ net.members
  threads : ∀ th ∈ net'.threads, th ∈ net.threads ∨ NewTask net th.task
  timers : ∀ t ∈ net'.timers, t ∈ net.timers ∨ ∃ th ∈ net.threads, ∃ call calls,
    th.task = .sending (call :: calls) ∧ t.2 = ⟨call, decide (call.target ∈ net.registered)⟩
  jobQueue : ∀ job ∈ net'.jobQueue, job ∈ net.jobQueue ∨ ∃ t ∈ net.timers, t.2 = job

omit [StateMachine σ] in
theorem mem_emplaces {timers : List (Int × Delivery)} {fireAt : Int} {job : Delivery} {k : Nat}
    {t : Int × Delivery} (h : t ∈ (emplace · fireAt job)^[k] timers) : t ∈ timers ∨ t.2 = job := by
  induction k with
  | zero => exact .inl h
  | succ k ih =>
      rw [Function.iterate_succ_apply', emplace, List.mem_append, List.mem_cons] at h
      rcases h with h | rfl | h
      · exact ih ((List.takeWhile_sublist _).subset h)
      · exact .inr rfl
      · exact ih ((List.dropWhile_sublist _).subset h)

omit [StateMachine σ] in
theorem mem_timers_send {rolls : Rolls} {call : Call} {t : Int × Delivery}
    (h : t ∈ (net.send rolls call).timers) :
    t ∈ net.timers ∨ t.2 = ⟨call, decide (call.target ∈ net.registered)⟩ := by
  unfold send deliver at h
  split at h
  · split at h
    · exact .inl h
    · exact mem_emplaces h
  · exact .inl h

omit [StateMachine σ] in
/-- What handing a call to the network leaves alone. -/
theorem send_eq (net : FaultyNetwork σ) (rolls : Rolls) (call : Call) :
    net.send rolls call = { net with timers := (net.send rolls call).timers } := by
  unfold send deliver
  split
  · split <;> rfl
  · rfl

theorem comes_runTask {i : Nat} {th : NetThread} (rolls : Rolls) (h : net.threads[i]? = some th) :
    Comes net (net.runTask i rolls th) := by
  have hmem := List.mem_of_getElem? h
  -- a thread that goes on
  have hgoOn : ∀ (nodes : NodeId → RaftNode σ) (task : Task), NewTask net task →
      Comes net ({ net with nodes }.goOn i th task) := by
    intro nodes task htask
    refine ⟨rfl, fun _ hn => .inl hn, fun th' hth' => ?_, fun _ ht => .inl ht,
      fun _ hjob => .inl hjob⟩
    rcases List.mem_or_eq_of_mem_set hth' with hth' | rfl
    · exact .inl hth'
    · exact .inr htask
  -- a thread that ends
  have hfinish : Comes net (net.finish i) :=
    ⟨rfl, fun _ hn => .inl hn, fun _ hth => .inl (List.mem_of_mem_eraseIdx hth),
      fun _ ht => .inl ht, fun _ hjob => .inl hjob⟩
  unfold runTask
  split
  · next job htask =>
    split
    · next hpass =>
      rw [Bool.and_eq_true] at hpass
      exact hgoOn net.nodes _ (.passed th job hmem htask hpass.1 hpass.2)
    · exact hfinish
  · next call htask => exact hgoOn _ _ (.answered th call hmem htask _)
  · next r htask => exact hgoOn _ _ (.calledBack th r hmem htask)
  · exact hfinish
  · next call calls htask =>
    -- the rest is the thread's, and what was sent may be among the timers
    have hsent := hgoOn net.nodes _ (.rest th call calls hmem htask)
    rw [net.send_eq rolls call]
    exact ⟨hsent.members, hsent.registered, hsent.threads, fun t ht =>
      (mem_timers_send ht).imp_right fun ht => ⟨th, hmem, call, calls, htask, ht⟩, hsent.jobQueue⟩

theorem step_comes {a : Action} (h : net.step a = some net') : Comes net net' := by
  have hsame : Comes net net := ⟨rfl, fun _ hn => .inl hn, fun _ hth => .inl hth,
    fun _ ht => .inl ht, fun _ hjob => .inl hjob⟩
  cases a with
  | node act =>
      obtain ⟨n, nd, sent, hown, hn, hrestart, rfl⟩ := step_own h
      refine ⟨rfl, hsame.registered, fun th hth => ?_, hsame.timers, hsame.jobQueue⟩
      refine (List.mem_append.mp hth).imp_right fun hth => ?_
      cases List.mem_singleton.mp hth
      exact .sent act n nd sent hown hn hrestart
  | run i rolls =>
      obtain ⟨th, hth, rfl⟩ := Option.map_eq_some_iff.mp h
      exact comes_runTask rolls hth
  | pop =>
      simp only [step] at h
      split at h
      · cases h
      · next job jobs hjobs =>
        obtain ⟨-, h⟩ := Option.ite_none_right_eq_some.mp h
        cases h
        refine ⟨rfl, hsame.registered, fun th hth => ?_, hsame.timers, fun _ hjob => .inl ?_⟩
        · refine (List.mem_append.mp hth).imp_right fun hth => ?_
          cases List.mem_singleton.mp hth
          exact .took job (hjobs ▸ List.mem_cons_self)
        · exact hjobs ▸ List.mem_cons_of_mem _ hjob
  | schedule =>
      simp only [step] at h
      split at h
      · cases h
      · next fireAt job timers htimers =>
        obtain ⟨-, h⟩ := Option.ite_none_right_eq_some.mp h
        cases h
        refine ⟨rfl, hsame.registered, hsame.threads, fun t ht => .inl ?_, fun _ hjob => ?_⟩
        · exact htimers ▸ List.mem_cons_of_mem _ ht
        · refine (List.mem_append.mp hjob).imp_right fun hjob => ⟨(fireAt, job), ?_, ?_⟩
          · exact htimers ▸ List.mem_cons_self
          · exact (List.mem_singleton.mp hjob).symm
  | registerNode id =>
      obtain ⟨hid, h⟩ := Option.ite_none_right_eq_some.mp h
      cases h
      refine ⟨rfl, fun n hn => ?_, hsame.threads, hsame.timers, hsame.jobQueue⟩
      rcases List.mem_cons.mp hn with rfl | hn
      · exact .inr hid
      · exact .inl hn
  | tick | partition | healPartition | setDropRate | setDuplicateRate | setDelayMs | killNode
  | reviveNode =>
      cases h
      exact ⟨hsame.members, hsame.registered, hsame.threads, hsame.timers, hsame.jobQueue⟩

/-- What the network holds stays sound. -/
theorem Sound.step {a : Action} (hs : net.Sound) (h : net.step a = some net') : net'.Sound := by
  have hcomes := step_comes h
  have hsign := (step_moves h).signature
  -- what a member signs is its own, in its first life
  have hown : ∀ (call : Call) (n : NodeId), n ∈ net.members → call.SignedBy (net.nodes n) →
      call.Own net.members := fun call n hn hsigned =>
    ⟨by rwa [hsigned.1, hs.id], by rw [hsigned.2, hs.incarnation]⟩
  constructor
  case id => exact fun n => (hsign n).1.trans (hs.id n)
  case incarnation => exact fun n => (hsign n).2.trans (hs.incarnation n)
  all_goals rw [hcomes.members]
  case registered => exact fun n hn => (hcomes.registered n hn).elim (hs.registered n) fun hn => hn
  case threads =>
    intro th hth
    rcases hcomes.threads th hth with hth | htask
    · exact hs.threads th hth
    · -- each new task comes from the one before, which was sound
      generalize th.task = task at htask
      cases htask with
      | sent act n nd sent hstep hn hrestart =>
          exact fun call hcall =>
            hown call n hn ((Cluster.ownStep_signature hstep hrestart).2 call hcall)
      | took job hjob => exact hs.jobQueue job hjob
      | passed th job hth htask hfound =>
          have htook := hs.threads th hth
          rw [htask] at htook
          exact ⟨htook.1, htook.2 hfound⟩
      | answered th call hth htask =>
          have hpassed := hs.threads th hth
          rw [htask] at hpassed
          exact hpassed.1
      | calledBack th r hth htask =>
          have hanswered := hs.threads th hth
          rw [htask] at hanswered
          exact fun call hcall =>
            hown call r.sender hanswered.1 (RaftNode.signedBy_of_mem_callback hcall)
      | rest th call calls hth htask =>
          have hsending := hs.threads th hth
          rw [htask] at hsending
          exact fun x hx => hsending x (List.mem_cons_of_mem _ hx)
  case timers =>
    intro t ht
    obtain ht | ⟨th, hth, call, calls, htask, ht⟩ := hcomes.timers t ht
    · exact hs.timers t ht
    · -- a timer is set for a call that some thread was sending
      have hsending := hs.threads th hth
      rw [htask] at hsending
      rw [ht]
      exact ⟨hsending call List.mem_cons_self, fun hfound =>
        hs.registered _ (of_decide_eq_true hfound)⟩
  case jobQueue =>
    intro job hjob
    obtain hjob | ⟨t, ht, rfl⟩ := hcomes.jobQueue job hjob
    · exact hs.jobQueue job hjob
    · exact hs.timers t ht

/-- While the network separates two sides, no call is let through from one to the
other. -/
theorem Settled.step {a : Action} (hs : net.Settled P)
    (hsep : ∀ m n, net.reachable m n = true → (P m ↔ P n)) (h : net.step a = some net') :
    net'.Settled P := by
  intro th hth
  rcases (step_comes h).threads th hth with hth | htask
  · exact hs th hth
  · generalize th.task = task at htask
    cases htask with
    | sent | took | calledBack | rest => trivial
    | passed th job _ _ _ hreach => exact hsep _ _ hreach
    | answered th call hth htask =>
        have hpassed := hs th hth
        rw [htask] at hpassed
        exact hpassed

theorem Sound.start (S : Setup) (workers : Nat) :
    (FaultyNetwork.start S workers : FaultyNetwork σ).Sound where
  id _ := rfl
  incarnation _ := rfl
  registered _ h := absurd h List.not_mem_nil
  threads _ h := absurd h List.not_mem_nil
  timers _ h := absurd h List.not_mem_nil
  jobQueue _ h := absurd h List.not_mem_nil

/-! ## The cluster beside the network -/

/-- As far as the nodes of `P` are concerned, the cluster `c` is where the network is;
what the network has lost may still be on its way there. -/
structure Follows (P : NodeId → Prop) (net : FaultyNetwork σ) (c : Cluster σ) : Prop where
  members : c.members = net.members
  nodes : ∀ n, P n → c.nodes n = net.nodes n
  calls : ∀ x : Call, P x.sender → P x.target → net.pending.count x ≤ c.calls.count x
  replies : ∀ r : Reply, P r.sender → P r.target → net.answers.count r ≤ c.replies.count r

/-- No configuration is proposed, and no request for a vote is copied. -/
def Steady (net : FaultyNetwork σ) (a : Action) : Prop :=
  a.changesMembership = false ∧ net.repeatsVote a = false

instance (net : FaultyNetwork σ) (a : Action) : Decidable (net.Steady a) :=
  inferInstanceAs (Decidable (_ ∧ _))

variable {c c' : Cluster σ} {n : NodeId} {nd : RaftNode σ}

omit [StateMachine σ] in
/-- Both sides change the same node. -/
theorem Follows.update (hf : Follows P net c) (hmembers : c'.members = net'.members)
    (hnodes : net'.nodes = Function.update net.nodes n nd)
    (hnodes' : c'.nodes = Function.update c.nodes n nd)
    (hcalls : ∀ x : Call, P x.sender → P x.target → net'.pending.count x ≤ c'.calls.count x)
    (hreplies : ∀ r : Reply, P r.sender → P r.target → net'.answers.count r ≤ c'.replies.count r) :
    Follows P net' c' := by
  refine ⟨hmembers, fun m hm => ?_, hcalls, hreplies⟩
  by_cases hmn : m = n
  · rw [hnodes, hnodes', hmn, Function.update_self, Function.update_self]
  · rw [hnodes, hnodes', Function.update_of_ne hmn, Function.update_of_ne hmn, hf.nodes m hm]

omit [StateMachine σ] in
/-- The cluster does not follow a node that is not of `P`. -/
theorem Follows.skip (hf : Follows P net c) (hP : ¬ P n) (hmembers : c.members = net'.members)
    (hnodes : net'.nodes = Function.update net.nodes n nd)
    (hcalls : ∀ x : Call, P x.sender → P x.target → net'.pending.count x ≤ net.pending.count x)
    (hreplies : ∀ r : Reply, P r.sender → P r.target →
      net'.answers.count r ≤ net.answers.count r) : Follows P net' c := by
  refine ⟨hmembers, fun m hm => ?_, fun x hs ht => (hcalls x hs ht).trans (hf.calls x hs ht),
    fun r hs ht => (hreplies r hs ht).trans (hf.replies r hs ht)⟩
  have hmn : m ≠ n := fun h => hP (h ▸ hm)
  rw [hnodes, Function.update_of_ne hmn, hf.nodes m hm]

/-- What the cluster may do while the network does `a`: only nodes of `P` take part, and
it proposes a configuration or copies a request for a vote only if the network does. -/
structure Permits (P : NodeId → Prop) (net : FaultyNetwork σ) (a : Action) (c : Cluster σ)
    (x : KvRaft.Action) : Prop where
  fixed : a.changesMembership = false → c.FixedMembership x
  once : net.repeatsVote a = false → c.VotesOnce x
  among : c.Among P x

omit [StateMachine σ] in
/-- A message between two nodes of `P` is delivered or answered. -/
theorem Permits.message {a : Action} {x : KvRaft.Action} {m : NodeId} (hsteady : c.Steady x)
    (hends : c.ends x = [n, m]) (hn : P n) (hm : P m) : Permits P net a c x := by
  refine ⟨fun _ => hsteady.1, fun _ => hsteady.2, ?_⟩
  rw [Cluster.Among, hends]
  exact List.forall_mem_cons.mpr ⟨hn, List.forall_mem_singleton.mpr hm⟩

section Cases

variable {a : Action}

omit [StateMachine σ] in
/-- Only what is on its way gets less. -/
theorem Follows.quiet (hf : Follows P net c) (hmembers : c.members = net'.members)
    (hnodes : net'.nodes = net.nodes)
    (hcalls : ∀ x : Call, P x.sender → P x.target → net'.pending.count x ≤ net.pending.count x)
    (hreplies : ∀ r, net'.answers.count r ≤ net.answers.count r) : Follows P net' c :=
  ⟨hmembers, fun m hm => by rw [hf.nodes m hm, hnodes],
    fun x hs ht => (hcalls x hs ht).trans (hf.calls x hs ht),
    fun r hs ht => (hreplies r).trans (hf.replies r hs ht)⟩

/-- A node of `P` takes the same step in the cluster. -/
theorem Follows.own (hf : Follows P net c) (hs : net.Sound) (hmembers : c.members = net'.members)
    {act : KvRaft.Action} {sent : List Call} (hact : a = .node act)
    (hown : net.cluster.ownStep act = some (n, nd, sent)) (hn : n ∈ net.members)
    (hrestart : ∀ m, act ≠ .restart m) (hnodes : net'.nodes = Function.update net.nodes n nd)
    (hcalls : ∀ x, net'.pending.count x = net.pending.count x + sent.count x)
    (hreplies : ∀ r, net'.answers.count r = net.answers.count r) :
    ∃ c', Run Cluster.step (Permits P net a) c c' ∧ Follows P net' c' := by
  by_cases hP : P n
  · -- the cluster takes the same step
    have hown' : c.ownStep act = some (n, nd, sent) := Cluster.ownStep_congr hown (hf.nodes n hP)
    have hpermits : Permits P net a c act := by
      refine ⟨fun hfixed => ?_, fun _ => Cluster.votesOnce_of_ownStep hown' c, ?_⟩
      · rwa [hact] at hfixed
      · rw [Cluster.Among, Cluster.ends_of_ownStep hown']
        exact List.forall_mem_singleton.mpr hP
    refine ⟨c.put n nd sent, .single hpermits (Cluster.step_of_ownStep hown' (hf.members ▸ hn)),
      hf.update hmembers hnodes rfl (fun x hs ht => ?_)
        fun r hs ht => hreplies r ▸ hf.replies r hs ht⟩
    rw [hcalls, Cluster.put, List.count_append]
    exact Nat.add_le_add_right (hf.calls x hs ht) _
  · -- what the node sends has its name on it, so nothing of it concerns the cluster
    refine ⟨c, .refl c, hf.skip hP hmembers hnodes (fun x hx _ => ?_) fun r _ _ =>
      Nat.le_of_eq (hreplies r)⟩
    have hnot : x ∉ sent := fun hmem => by
      have hsigned := (Cluster.ownStep_signature hown hrestart).2 x hmem
      exact hP (hs.id n ▸ hsigned.1 ▸ hx)
    rw [hcalls, List.count_eq_zero_of_not_mem hnot, Nat.add_zero]

/-- A call between nodes of `P` is copied in the cluster too. -/
theorem Follows.twice (hf : Follows P net c) (hmembers : c.members = net'.members) {call : Call}
    (hvote : call.isVote = true → net.repeatsVote a = true) (hmem : call ∈ net.pending)
    (hnodes : net'.nodes = net.nodes)
    (hcalls : ∀ x, net'.pending.count x = net.pending.count x + [call].count x)
    (hreplies : ∀ r, net'.answers.count r = net.answers.count r) :
    ∃ c', Run Cluster.step (Permits P net a) c c' ∧ Follows P net' c' := by
  by_cases hP : P call.sender ∧ P call.target
  · -- the network holds the call, so the cluster does and can copy it
    have hpos := List.count_pos_iff.mpr hmem
    have hin := List.count_pos_iff.mp (hpos.trans_le (hf.calls call hP.1 hP.2))
    obtain ⟨i, honce, hends, hcopy⟩ := Cluster.exists_copy hin
    have hpermits : Permits P net a c (.copy i) := by
      refine ⟨fun _ => rfl, fun hrepeats => honce ?_, ?_⟩
      · rw [← Bool.not_eq_true]
        exact fun hv => absurd (hvote hv) (by simp [hrepeats])
      · rw [Cluster.Among, hends]
        exact List.forall_mem_cons.mpr ⟨hP.1, List.forall_mem_singleton.mpr hP.2⟩
    refine ⟨c.copyCall call, .single hpermits hcopy, hmembers,
      fun m hm => by rw [hnodes, ← hf.nodes m hm]; rfl, fun x hs ht => ?_,
      fun r hs ht => hreplies r ▸ hf.replies r hs ht⟩
    rw [hcalls, Cluster.copyCall, List.count_append]
    exact Nat.add_le_add_right (hf.calls x hs ht) _
  · -- one of its ends is elsewhere: the cluster does not hold the call at all
    refine ⟨c, .refl c, hf.quiet hmembers hnodes (fun x hs ht => ?_)
      fun r => Nat.le_of_eq (hreplies r)⟩
    have hnot : x ∉ [call] := fun hx => hP (List.mem_singleton.mp hx ▸ ⟨hs, ht⟩)
    rw [hcalls, List.count_eq_zero_of_not_mem hnot, Nat.add_zero]

/-- A call that was let through reaches its target in the cluster too. -/
theorem Follows.handled (hf : Follows P net c) (hmembers : c.members = net'.members)
    {call : Call} (htarget : call.target ∈ net.members) (hside : P call.sender ↔ P call.target)
    (hnodes : net'.nodes =
      Function.update net.nodes call.target ((net.nodes call.target).handle call.rpc).1)
    (hcalls : ∀ x, net'.pending.count x + [call].count x = net.pending.count x)
    (hreplies : ∀ r, net'.answers.count r = net.answers.count r +
      [(⟨call.sender, call.target, call.incarnation,
        ((net.nodes call.target).handle call.rpc).2⟩ : Reply)].count r) :
    ∃ c', Run Cluster.step (Permits P net a) c c' ∧ Follows P net' c' := by
  by_cases hP : P call.target
  · -- the network holds the call, so the cluster does
    have hone : 0 < net.pending.count call := by
      have := hcalls call
      rw [List.count_singleton_self] at this
      omega
    have hin := List.count_pos_iff.mp (hone.trans_le (hf.calls call (hside.mpr hP) hP))
    obtain ⟨i, rest, hsteady, hends, hdeliver, hrest⟩ :=
      Cluster.exists_receive hin (hf.members ▸ htarget)
    have hnode := hf.nodes _ hP
    refine ⟨_, .single (.message hsteady hends (hside.mpr hP) hP) hdeliver,
      hf.update hmembers hnodes ?_ (fun x hs ht => ?_) fun r hs ht => ?_⟩
    · rw [← hnode]
      rfl
    · have := hcalls x
      have := hrest x
      have := hf.calls x hs ht
      change _ ≤ rest.count x
      omega
    · rw [hreplies, ← hnode]
      change _ ≤ (c.replies ++ [_]).count r
      rw [List.count_append]
      exact Nat.add_le_add_right (hf.replies r hs ht) _
  · -- neither end of the call is of this part
    refine ⟨c, .refl c, hf.skip hP hmembers hnodes (fun x _ _ => ?_) fun r hr _ => ?_⟩
    · have := hcalls x
      omega
    · have hnot : r ∉ [(⟨call.sender, call.target, call.incarnation,
          ((net.nodes call.target).handle call.rpc).2⟩ : Reply)] := fun hmem =>
        hP (hside.mp (by rwa [List.mem_singleton.mp hmem] at hr))
      rw [hreplies, List.count_eq_zero_of_not_mem hnot, Nat.add_zero]

/-- An answer reaches its callback in the cluster too. -/
theorem Follows.calledBack (hf : Follows P net c) (hs : net.Sound)
    (hmembers : c.members = net'.members) {r : Reply} (hsender : r.sender ∈ net.members)
    (hlife : r.incarnation = 0) (hside : P r.sender ↔ P r.target)
    (hnodes : net'.nodes = Function.update net.nodes r.sender
      ((net.nodes r.sender).callback r.target r.answer).1)
    (hcalls : ∀ x, net'.pending.count x = net.pending.count x +
      ((net.nodes r.sender).callback r.target r.answer).2.count x)
    (hreplies : ∀ x, net'.answers.count x + [r].count x = net.answers.count x) :
    ∃ c', Run Cluster.step (Permits P net a) c c' ∧ Follows P net' c' := by
  by_cases hP : P r.sender
  · -- a worker holds the answer, so it is on its way in the cluster
    have hone : 0 < net.answers.count r := by
      have := hreplies r
      rw [List.count_singleton_self] at this
      omega
    have hin := List.count_pos_iff.mp (hone.trans_le (hf.replies r hP (hside.mp hP)))
    have hnode := hf.nodes _ hP
    obtain ⟨i, rest, hsteady, hends, hreply, hrest⟩ :=
      Cluster.exists_callback hin (hf.members ▸ hsender) (by rw [hnode, hs.incarnation, hlife])
    refine ⟨_, .single (.message hsteady hends hP (hside.mp hP)) hreply,
      hf.update hmembers hnodes ?_ (fun x hs ht => ?_) fun x hs ht => ?_⟩
    · rw [← hnode]
      rfl
    · rw [hcalls, ← hnode]
      change _ ≤ (c.calls ++ _).count x
      rw [List.count_append]
      exact Nat.add_le_add_right (hf.calls x hs ht) _
    · have := hreplies x
      have := hrest x
      have := hf.replies x hs ht
      change _ ≤ rest.count x
      omega
  · -- the callback sends in the name of a node elsewhere
    refine ⟨c, .refl c, hf.skip hP hmembers hnodes (fun x hx _ => ?_) fun x _ _ => ?_⟩
    · have hnot : x ∉ ((net.nodes r.sender).callback r.target r.answer).2 := fun hmem => by
        have hsigned := RaftNode.signedBy_of_mem_callback hmem
        exact hP (hs.id r.sender ▸ hsigned.1 ▸ hx)
      rw [hcalls, List.count_eq_zero_of_not_mem hnot, Nat.add_zero]
    · have := hreplies x
      omega

end Cases

/-- **Simulation**: what the network does, the cluster does or leaves. -/
theorem Follows.step {a : Action} (hf : Follows P net c) (hs : net.Sound) (hsettled : net.Settled P)
    (h : net.step a = some net') :
    ∃ c', Run Cluster.step (Permits P net a) c c' ∧ Follows P net' c' := by
  have hmembers : c.members = net'.members := hf.members.trans (step_comes h).members.symm
  cases step_moves h with
  | quiet hnodes hcalls hreplies =>
      exact ⟨c, .refl c, hf.quiet hmembers hnodes (fun x _ _ => hcalls x) hreplies⟩
  | own act n nd sent hact hown hn hrestart hnodes hcalls hreplies =>
      exact hf.own hs hmembers hact hown hn hrestart hnodes hcalls hreplies
  | twice call hvote hmem hnodes hcalls hreplies =>
      exact hf.twice hmembers hvote hmem hnodes hcalls hreplies
  -- what a worker has let through stays on its side of the partition
  | handled th call hth htask hnodes hcalls hreplies =>
      have hsound := hs.threads th hth
      have hside := hsettled th hth
      rw [htask] at hsound hside
      exact hf.handled hmembers hsound.2 hside hnodes hcalls hreplies
  | calledBack th r hth htask hnodes hcalls hreplies =>
      have hsound := hs.threads th hth
      have hside := hsettled th hth
      rw [htask] at hsound hside
      exact hf.calledBack hs hmembers hsound.1 hsound.2 hside hnodes hcalls hreplies

omit [StateMachine σ] in
theorem Follows.cluster (P : NodeId → Prop) (net : FaultyNetwork σ) : Follows P net net.cluster :=
  ⟨rfl, fun _ _ => rfl, fun _ _ _ => Nat.le_refl _, fun _ _ _ => Nat.le_refl _⟩

/-- No message passes between a node of `P` and one that is not. -/
def Separates (P : NodeId → Prop) (net : FaultyNetwork σ) : Prop :=
  ∀ m n, net.reachable m n = true → (P m ↔ P n)

/-- A whole run is followed, as long as the network separates the nodes of `P` from
the others. -/
theorem Follows.run {ok : FaultyNetwork σ → Action → Prop}
    {ok' : Cluster σ → KvRaft.Action → Prop} (hf : Follows P net c) (hs : net.Sound)
    (hsettled : net.Settled P) (hsep : ∀ net a, ok net a → net.Separates P)
    (hpermits : ∀ net a c x, ok net a → Permits P net a c x → ok' c x)
    (r : Run FaultyNetwork.step ok net net') :
    ∃ c', Run Cluster.step ok' c c' ∧ Follows P net' c' := by
  have hrun := r.invariant (P := fun net => net.Sound ∧ net.Settled P ∧ ∃ c',
    Run Cluster.step ok' c c' ∧ Follows P net c') ⟨hs, hsettled, c, .refl c, hf⟩ ?_
  · exact hrun.2.2
  · rintro net a net' ⟨hs, hsettled, c, hc, hf⟩ hok hstep
    obtain ⟨c', hc', hf'⟩ := hf.step hs hsettled hstep
    exact ⟨hs.step hstep, hsettled.step (hsep net a hok) hstep, c',
      hc.trans (hc'.mono fun c x => hpermits net a c x hok), hf'⟩

theorem Sound.run (hs : net.Sound) {ok : FaultyNetwork σ → Action → Prop}
    (r : Run FaultyNetwork.step ok net net') : net'.Sound :=
  r.invariant hs fun _ _ _ hs _ hstep => hs.step hstep

end FaultyNetwork

/-- **Refinement**: whatever the network loses, delays, reorders, copies or cuts off, its
nodes are where those of a cluster are that takes the steps of `KvRaft.Cluster`. -/
theorem test_network_refines [StateMachine σ] (S : Setup) (workers : Nat) {net : FaultyNetwork σ}
    (r : Run FaultyNetwork.step (fun _ _ => True) (.start S workers) net) :
    ∃ c, Run Cluster.step (fun _ _ => True) S.start c ∧ c.nodes = net.nodes := by
  let all : NodeId → Prop := fun _ => True
  have hstart : FaultyNetwork.Follows all (.start S workers : FaultyNetwork σ) S.start :=
    .cluster all (.start S workers)
  have hsettled : ((.start S workers : FaultyNetwork σ)).Settled all := fun _ h => by cases h
  obtain ⟨c, hc, hf⟩ := hstart.run (.start S workers) hsettled (fun _ _ _ _ _ _ => Iff.rfl)
    (fun _ _ _ _ _ _ => trivial) r
  exact ⟨c, hc, funext fun n => hf.nodes n trivial⟩

/-- Nothing is lost or copied at a rate of a quarter. -/
def calm : Rolls := ⟨⟨1 / 2, by norm_num⟩, ⟨1 / 2, by norm_num⟩, ⟨0, by norm_num⟩⟩

/-- The call is copied. -/
def doubled : Rolls := ⟨⟨1 / 2, by norm_num⟩, ⟨0, by norm_num⟩, ⟨0, by norm_num⟩⟩

/-- Node 3 is cut off; node 1 is elected by node 2, and one of its requests is copied. -/
def electedBesidePartition : FaultyNetwork KvStore :=
  replay FaultyNetwork.step (.start threeNodes 8)
    [.registerNode 1, .registerNode 2, .registerNode 3, .setDropRate (1 / 4),
      .setDuplicateRate (1 / 4), .partition [3], .node (.timeout 1), .run 0 calm, .run 0 calm,
      .run 0 calm, .schedule, .pop, .run 0 calm, .run 0 calm, .run 0 calm, .run 0 doubled,
      .run 0 calm, .run 0 calm, .schedule, .schedule, .pop, .run 0 calm, .run 0 calm, .run 0 calm]

theorem test_network_refines_of_electedBesidePartition :
    (electedBesidePartition.nodes 1).role = .leader ∧
      (electedBesidePartition.nodes 1).commitIndex = 1 ∧
      ∃ c, Run Cluster.step (fun _ _ => True) threeNodes.start c ∧
        c.nodes = electedBesidePartition.nodes := by
  have hrun : Run FaultyNetwork.step (fun _ _ => True)
      (.start threeNodes 8 : FaultyNetwork KvStore) electedBesidePartition :=
    run_replay (by decide +kernel)
  exact ⟨by decide +kernel, by decide +kernel, test_network_refines threeNodes 8 hrun⟩

end KvRaft
