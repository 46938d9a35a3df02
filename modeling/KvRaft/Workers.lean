import KvRaft.TcpTransport
import KvRaft.WorkQueue

/-!
# KvRaft.Workers

The threads of `TcpTransport`: `enqueue` and the destructor with what they notify, and
`workerLoop` with its wait on `qcv_`.  The jobs themselves are those of
`KvRaft.TcpTransport`.

* `TcpWorkers.follows_run` — as far as the queue goes, these are runs of a `WorkQueue`;
* `TcpWorkers.own_add_work_le` — each step of a worker leaves less to do;
* `every_call_called_back` — if nobody sends any more, the workers come to rest, and then
  each request has had its callback once.
-/

namespace KvRaft

/-- Where a worker is in its loop outside of a job. -/
inductive Wait
  /-- about to lock `qmu_`, or with a job -/
  | awake
  /-- in `qcv_.wait` -/
  | asleep
  /-- `workerLoop` has returned -/
  | gone
  deriving DecidableEq

def Wait.wake : Wait → Wait
  | asleep => awake
  | wait => wait

def Wait.weight : Wait → Nat
  | awake => 1
  | _ => 0

structure TcpWorkers (σ : Type) where
  transport : TcpTransport σ
  waits : List Wait
  /-- the destructor has called `notify_all` -/
  told : Bool

namespace TcpWorkers

variable {σ : Type} [StateMachine σ]

def new (shardId : Nat) (peerAddrs : List NodeId) (workers : Nat)
    (peers : NodeId → PeerServer σ) : TcpWorkers σ where
  transport := .new shardId peerAddrs workers peers
  waits := List.replicate workers .awake
  told := false

inductive Action (σ : Type)
  /-- with the worker that `notify_one` wakes, if one sleeps -/
  | enqueue (target : NodeId) (rpc : Rpc) (woken : Option Nat)
  /-- the destructor -/
  | close
  | notifyAll
  /-- a worker has the lock and evaluates the condition of the wait -/
  | look (w : Nat)
  | wakeUp (w : Nat)
  /-- a job, the peers or the connections go on -/
  | inside (a : TcpTransport.Action σ)

/-- `qcv_.notify_one()` under the lock. -/
def notifyOne (s : TcpWorkers σ) : Option Nat → Option (TcpWorkers σ)
  | some w => if s.waits[w]? = some .asleep then some { s with waits := s.waits.set w .awake }
      else none
  | none => if Wait.asleep ∈ s.waits then none else some s

/-- What a worker does between `wait` and the end of its lock. -/
def look (s : TcpWorkers σ) (w : Nat) : Option (TcpWorkers σ) :=
  match s.transport.queue with
  | [] =>
      if s.transport.stopping then some { s with waits := s.waits.set w .gone }
      else some { s with waits := s.waits.set w .asleep }
  | _ :: _ => (s.transport.step (.take w)).map fun transport => { s with transport }

/-- A worker goes on with its job. -/
def ofWorker : TcpTransport.Action σ → Bool
  | .getConn .. | .writeFrame .. | .readFrame .. | .dropConn _ => true
  | _ => false

/-- What the other side and the network do. -/
def ofPeers : TcpTransport.Action σ → Bool
  | .connLoop _ | .breaks .. | .peer .. => true
  | _ => false

def step (s : TcpWorkers σ) : Action σ → Option (TcpWorkers σ)
  | .enqueue target rpc woken =>
      if s.transport.stopping then some s
      else do
        let transport ← s.transport.step (.send target rpc)
        { s with transport }.notifyOne woken
  | .close => (s.transport.step .stop).map fun transport => { s with transport }
  | .notifyAll =>
      if s.transport.stopping then some { s with waits := s.waits.map Wait.wake, told := true }
      else none
  | .look w =>
      if s.waits[w]? = some .awake ∧ s.transport.workers[w]? = some .idle then s.look w else none
  | .wakeUp w => if s.waits[w]? = some .asleep then some { s with waits := s.waits.set w .awake }
      else none
  | .inside a =>
      if ofWorker a ∨ ofPeers a then
        (s.transport.step a).map fun transport => { s with transport }
      else none

end TcpWorkers

/-! ## Jobs -/

namespace Stage

def job? : Stage → Option Job
  | idle => none
  | started job | connected job _ | written job _ | unsent job | unread job _ => some job

theorem eq_idle {x : Stage} (h : x.job? = none) : x = idle := by
  cases x <;> first | rfl | cases h

/-- How much of a job is left. -/
def weight : Stage → Nat
  | idle => 0
  | unsent _ | unread .. => 2
  | written .. => 3
  | connected .. => 4
  | started _ => 5

end Stage

namespace TcpTransport

variable {σ : Type} [StateMachine σ]

/-- What a worker does in its job. -/
inductive Advances (s t : TcpTransport σ) : Prop
  | goesOn {w : Nat} {x y : Stage} {job : Job} (hw : s.workers[w]? = some x)
      (hx : x.job? = some job) (hworkers : t.workers = s.workers.set w y)
      (hy : y.job? = some job) (hweight : y.weight < x.weight)
      (hcallbacks : t.callbacks = s.callbacks)
  | finishes {w : Nat} {x : Stage} {job : Job} {resp : Option Frame}
      (hw : s.workers[w]? = some x) (hx : x.job? = some job) (hweight : 0 < x.weight)
      (hworkers : t.workers = s.workers.set w .idle)
      (hcallbacks : t.callbacks = s.callbacks ++ [(job, resp)])

/-- The rest of the state that the pool reads. -/
def SameQueue (s t : TcpTransport σ) : Prop :=
  t.queue = s.queue ∧ t.stopping = s.stopping ∧ t.calls = s.calls

omit [StateMachine σ] in
theorem disconnect_same (s : TcpTransport σ) (target : NodeId) :
    SameQueue s (s.disconnect target) ∧ (s.disconnect target).workers = s.workers ∧
      (s.disconnect target).callbacks = s.callbacks := by
  unfold disconnect
  split
  · exact ⟨⟨rfl, rfl, rfl⟩, rfl, rfl⟩
  · exact ⟨⟨rfl, rfl, rfl⟩, rfl, rfl⟩

theorem advances {s t : TcpTransport σ} {a : Action σ} (h : s.step a = some t)
    (ha : TcpWorkers.ofWorker a = true) : SameQueue s t ∧ Advances s t := by
  cases a with
  | send | stop | take | connLoop | breaks | peer => cases ha
  | getConn w connected =>
      rw [step] at h
      split at h
      · next job hw =>
        split at h
        · -- a connection is there, or is made; without one the job ends
          cases h
          exact ⟨⟨rfl, rfl, rfl⟩, .goesOn hw rfl rfl rfl (by decide : 4 < 5) rfl⟩
        · split at h
          · cases h
            exact ⟨⟨rfl, rfl, rfl⟩, .finishes hw rfl (by decide : 0 < 5) rfl rfl⟩
          · split at h
            · cases h
              exact ⟨⟨rfl, rfl, rfl⟩, .finishes hw rfl (by decide : 0 < 5) rfl rfl⟩
            · split at h
              · cases h
              · cases h
                exact ⟨⟨rfl, rfl, rfl⟩, .goesOn hw rfl rfl rfl (by decide : 4 < 5) rfl⟩
      · cases h
  | writeFrame w ok =>
      rw [step] at h
      split at h
      · next job fd hw =>
        split at h
        · split at h
          · cases h
          · cases h
            -- a frame that could not be written is followed by `dropConn`
            exact ⟨⟨rfl, rfl, rfl⟩, .goesOn hw rfl rfl rfl (by decide : 3 < 4) rfl⟩
        · cases h
          exact ⟨⟨rfl, rfl, rfl⟩, .goesOn hw rfl rfl rfl (by decide : 2 < 4) rfl⟩
      · cases h
  | readFrame w ok =>
      rw [step] at h
      split at h
      · next job fd hw =>
        split at h
        · split at h
          · cases h
          · split at h
            · cases h
            · cases h
              -- the response ends the job
              exact ⟨⟨rfl, rfl, rfl⟩, .finishes hw rfl (by decide : 0 < 3) rfl rfl⟩
        · cases h
          exact ⟨⟨rfl, rfl, rfl⟩, .goesOn hw rfl rfl rfl (by decide : 2 < 3) rfl⟩
      · cases h
  | dropConn w =>
      -- `dropConn` closes the connection of the target and calls back without a response
      have hdrop : ∀ (x : Stage) (job : Job), s.workers[w]? = some x → x.job? = some job →
          0 < x.weight → t = (s.disconnect job.target).finish w job none →
          SameQueue s t ∧ Advances s t := by
        rintro x job hw hx hweight rfl
        obtain ⟨hqueue, hworkers, hcallbacks⟩ := s.disconnect_same job.target
        exact ⟨hqueue, .finishes hw hx hweight (congrArg (·.set w .idle) hworkers)
          (congrArg (· ++ [(job, none)]) hcallbacks)⟩
      rw [step] at h
      split at h
      · next job hw => exact hdrop _ job hw rfl (by decide : 0 < 2) (Option.some.inj h).symm
      · next job fd hw => exact hdrop _ job hw rfl (by decide : 0 < 2) (Option.some.inj h).symm
      · cases h

theorem same_workers {s t : TcpTransport σ} {a : Action σ} (h : s.step a = some t)
    (ha : TcpWorkers.ofPeers a = true) :
    SameQueue s t ∧ t.workers = s.workers ∧ t.callbacks = s.callbacks := by
  cases a with
  | connLoop fd =>
      rw [step] at h
      split at h
      · split at h <;> cases h <;> exact ⟨⟨rfl, rfl, rfl⟩, rfl, rfl⟩
      · cases h
  | breaks fd kept =>
      rw [step] at h
      split at h
      · cases h
        exact ⟨⟨rfl, rfl, rfl⟩, rfl, rfl⟩
      · cases h
  | peer id p =>
      cases h
      exact ⟨⟨rfl, rfl, rfl⟩, rfl, rfl⟩
  | _ => cases ha

end TcpTransport

/-! ## The pool as a queue of jobs -/

theorem zip_set_left {α β : Type} {l : List α} {l' : List β} {i : Nat} {b : β} (a : α)
    (h : l'[i]? = some b) : (l.set i a).zip l' = (l.zip l').set i (a, b) := by
  induction l generalizing l' i with
  | nil => rfl
  | cons x l ih =>
      cases l' with
      | nil => cases h
      | cons y l' =>
          cases i with
          | zero =>
              obtain rfl : y = b := Option.some.inj h
              rfl
          | succ i => exact congrArg ((x, y) :: ·) (ih h)

theorem zip_set_right {α β : Type} {l : List α} {l' : List β} {i : Nat} {a : α} (b : β)
    (h : l[i]? = some a) : l.zip (l'.set i b) = (l.zip l').set i (a, b) := by
  induction l generalizing l' i with
  | nil => cases h
  | cons x l ih =>
      cases l' with
      | nil => rfl
      | cons y l' =>
          cases i with
          | zero =>
              obtain rfl : x = a := Option.some.inj h
              rfl
          | succ i => exact congrArg ((x, y) :: ·) (ih h)

namespace TcpWorkers

variable {σ : Type} [StateMachine σ]

/-- A worker as the queue sees it. -/
def workerOf (p : Stage × Wait) : Worker Job :=
  match p.1.job? with
  | some job => .busy job
  | none =>
      match p.2 with
      | .awake => .awake
      | .asleep => .asleep
      | .gone => .gone

theorem workerOf_of_job {p : Stage × Wait} {job : Job} (h : p.1.job? = some job) :
    workerOf p = .busy job := by
  unfold workerOf
  rw [h]

theorem wait_of_asleep {p : Stage × Wait} (h : workerOf p = .asleep) : p.2 = .asleep := by
  unfold workerOf at h
  split at h
  · cases h
  · split at h
    · cases h
    · assumption
    · cases h

theorem wait_of_gone {p : Stage × Wait} (h : workerOf p = .gone) : p.2 = .gone := by
  unfold workerOf at h
  split at h
  · cases h
  · split at h
    · cases h
    · cases h
    · assumption

theorem workerOf_wake (p : Stage × Wait) : workerOf (p.1, p.2.wake) = (workerOf p).wake := by
  obtain ⟨x, wait⟩ := p
  unfold workerOf
  cases x.job? with
  | some job => rfl
  | none => cases wait <;> rfl

def pairs (s : TcpWorkers σ) : List (Stage × Wait) := s.transport.workers.zip s.waits

/-- The queue `q` is that of the pool. -/
structure Follows (s : TcpWorkers σ) (q : WorkQueue Job) : Prop where
  queue : q.queue = s.transport.queue
  stopping : q.stopping = s.transport.stopping
  owed : q.owed = 0
  told : q.told = s.told
  accepted : q.accepted.map Job.call = List.range s.transport.calls
  finished : q.finished = s.transport.callbacks.map Prod.fst
  workers : q.workers = s.pairs.map workerOf
  length : s.transport.workers.length = s.waits.length
  /-- a worker with a job does not wait -/
  awake : ∀ (w : Nat) (x : Stage), s.transport.workers[w]? = some x → x.job? ≠ none →
    s.waits[w]? = some .awake

omit [StateMachine σ] in
theorem Follows.new (shardId : Nat) (peerAddrs : List NodeId) (workers : Nat)
    (peers : NodeId → PeerServer σ) :
    (TcpWorkers.new shardId peerAddrs workers peers).Follows
      ⟨[], false, List.replicate workers .awake, 0, false, [], []⟩ where
  queue := rfl
  stopping := rfl
  owed := rfl
  told := rfl
  accepted := rfl
  finished := rfl
  workers := by
    change _ = ((List.replicate workers Stage.idle).zip (List.replicate workers Wait.awake)).map _
    rw [List.zip_replicate', List.map_replicate]
    rfl
  length := by
    change (List.replicate workers Stage.idle).length = (List.replicate workers Wait.awake).length
    rw [List.length_replicate, List.length_replicate]
  awake := by
    intro w x hx hjob
    rw [List.eq_of_mem_replicate (List.mem_of_getElem? hx)] at hjob
    exact absurd rfl hjob

section

variable {s : TcpWorkers σ} {q : WorkQueue Job} {w : Nat} {x y : Stage} {wait : Wait}

omit [StateMachine σ] in
theorem Follows.worker (h : s.Follows q) (hx : s.transport.workers[w]? = some x)
    (hwait : s.waits[w]? = some wait) : q.workers[w]? = some (workerOf (x, wait)) := by
  have hpair : (s.transport.workers.zip s.waits)[w]? = some (x, wait) :=
    List.getElem?_zip_eq_some.mpr ⟨hx, hwait⟩
  rw [h.workers, List.getElem?_map, pairs, hpair]
  rfl

omit [StateMachine σ] in
/-- A worker without a job starts or ends to wait. -/
theorem Follows.setWait (h : s.Follows q) (hidle : s.transport.workers[w]? = some .idle)
    (wait : Wait) :
    { s with waits := s.waits.set w wait }.Follows (q.goTo w (workerOf (.idle, wait))) where
  queue := h.queue
  stopping := h.stopping
  owed := h.owed
  told := h.told
  accepted := h.accepted
  finished := h.finished
  workers := by
    change q.workers.set w _ = (s.transport.workers.zip (s.waits.set w wait)).map workerOf
    rw [zip_set_right wait hidle, List.map_set, h.workers]
    rfl
  length := by
    rw [List.length_set]
    exact h.length
  awake := by
    intro w' x' hx' hjob
    -- the worker that waits has no job
    have hne : w ≠ w' := by
      rintro rfl
      obtain rfl : Stage.idle = x' := Option.some.inj (hidle.symm.trans hx')
      exact hjob rfl
    rw [List.getElem?_set_ne hne]
    exact h.awake w' x' hx' hjob

omit [StateMachine σ] in
/-- A worker that does not wait goes on. -/
theorem Follows.setStage (h : s.Follows q) (hwait : s.waits[w]? = some .awake)
    {t : TcpTransport σ} (hworkers : t.workers = s.transport.workers.set w y)
    {queue finished : List Job} (hqueue : queue = t.queue)
    (hstopping : t.stopping = s.transport.stopping) (hcalls : t.calls = s.transport.calls)
    (hfinished : finished = t.callbacks.map Prod.fst) :
    { s with transport := t }.Follows
      { q.goTo w (workerOf (y, .awake)) with queue, finished } where
  queue := hqueue
  stopping := h.stopping.trans hstopping.symm
  owed := h.owed
  told := h.told
  accepted := by
    change _ = List.range t.calls
    rw [hcalls]
    exact h.accepted
  finished := hfinished
  workers := by
    change q.workers.set w _ = (t.workers.zip s.waits).map workerOf
    rw [hworkers, zip_set_left y hwait, List.map_set, h.workers]
    rfl
  length := by
    change t.workers.length = _
    rw [hworkers, List.length_set]
    exact h.length
  awake := by
    intro w' x' hx' hjob
    change t.workers[w']? = some x' at hx'
    -- only the worker that moves on changes its stage
    by_cases hne : w = w'
    · exact hne ▸ hwait
    · rw [hworkers, List.getElem?_set_ne hne] at hx'
      exact h.awake w' x' hx' hjob

omit [StateMachine σ] in
/-- Only a worker without a job sleeps. -/
theorem Follows.idle_of_asleep (h : s.Follows q) (hwait : s.waits[w]? = some .asleep) :
    s.transport.workers[w]? = some .idle := by
  have hlt : w < s.transport.workers.length := by
    rw [h.length]
    exact (List.getElem?_eq_some_iff.mp hwait).1
  have hx := List.getElem?_eq_getElem hlt
  generalize s.transport.workers[w] = x at hx
  by_cases hjob : x.job? = none
  · rw [hx, Stage.eq_idle hjob]
  · cases hwait.symm.trans (h.awake w x hx hjob)

end

open Relation (ReflTransGen)

omit [StateMachine σ] in
theorem Follows.put {s : TcpWorkers σ} {q : WorkQueue Job} (h : s.Follows q) (job : Job)
    (hcall : job.call = s.transport.calls) :
    { s with transport := { s.transport with
        queue := s.transport.queue ++ [job], calls := s.transport.calls + 1 } }.Follows
      { q with queue := q.queue ++ [job], accepted := q.accepted ++ [job] } where
  queue := by rw [h.queue]
  stopping := h.stopping
  owed := h.owed
  told := h.told
  accepted := by
    rw [List.map_append, h.accepted, List.range_succ, List.map_singleton, hcall]
  finished := h.finished
  workers := h.workers
  length := h.length
  awake := h.awake

omit [StateMachine σ] in
/-- `notify_one` pays what is owed for the job that was put in. -/
theorem Follows.notifyOne {s t : TcpWorkers σ} {q : WorkQueue Job} {woken : Option Nat}
    (h : s.Follows q) (hnotify : s.notifyOne woken = some t) :
    ∃ q', WorkQueue.Step { q with owed := 1 } q' ∧ t.Follows q' := by
  cases woken with
  | some w =>
      obtain ⟨hwait, hnotify⟩ := Option.ite_none_right_eq_some.mp hnotify
      cases hnotify
      -- who sleeps has no job
      have hidle := h.idle_of_asleep hwait
      have hfollows := h.setWait hidle .awake
      refine ⟨_, .notifyOne { q with owed := 1 } rfl (h.worker hidle hwait), ?_⟩
      exact ⟨h.queue, h.stopping, rfl, h.told, h.accepted, h.finished, hfollows.workers,
        hfollows.length, hfollows.awake⟩
  | none =>
      obtain ⟨hnone, hnotify⟩ := Option.ite_none_left_eq_some.mp hnotify
      cases hnotify
      refine ⟨_, .notifyNobody { q with owed := 1 } rfl ?_, ?_⟩
      · -- nobody sleeps, so nobody needs to be woken
        rw [h.workers]
        intro hmem
        obtain ⟨p, hp, heq⟩ := List.mem_map.mp hmem
        exact hnone (wait_of_asleep heq ▸ (List.of_mem_zip hp).2)
      · exact ⟨h.queue, h.stopping, rfl, h.told, h.accepted, h.finished, h.workers, h.length,
          h.awake⟩

/-- A worker goes on with its job, of which the queue sees only the end. -/
theorem Follows.inside {s : TcpWorkers σ} {transport : TcpTransport σ} {q : WorkQueue Job}
    {a : TcpTransport.Action σ} (h : s.Follows q) (htransport : s.transport.step a = some transport)
    (ha : ofWorker a = true) :
    ∃ q', ReflTransGen WorkQueue.Step q q' ∧ { s with transport }.Follows q' := by
  obtain ⟨⟨hqueue, hstopping, hcalls⟩, hadvances⟩ := TcpTransport.advances htransport ha
  cases hadvances with
  | goesOn hw hx hworkers hy hweight hcallbacks =>
      have hwait := h.awake _ _ hw (by rw [hx]; exact Option.some_ne_none _)
      have hworker := h.worker hw hwait
      rw [workerOf_of_job hx] at hworker
      have hfollows := h.setStage hwait hworkers (h.queue.trans hqueue.symm) hstopping hcalls
        (h.finished.trans (congrArg (·.map Prod.fst) hcallbacks.symm))
      obtain ⟨hlt, hself⟩ := List.getElem?_eq_some_iff.mp hworker
      rw [workerOf_of_job hy, WorkQueue.goTo, ← hself, List.set_getElem_self] at hfollows
      exact ⟨q, .refl, hfollows⟩
  | finishes hw hx hweight hworkers hcallbacks =>
      have hwait := h.awake _ _ hw (by rw [hx]; exact Option.some_ne_none _)
      have hworker := h.worker hw hwait
      rw [workerOf_of_job hx] at hworker
      refine ⟨_, .single (.finish q hworker), ?_⟩
      refine h.setStage hwait hworkers (h.queue.trans hqueue.symm) hstopping hcalls ?_
      rw [hcallbacks, List.map_append, h.finished]
      rfl

omit [StateMachine σ] in
/-- `notify_all` wakes whoever sleeps and changes no stage. -/
theorem Follows.notifyAll {s : TcpWorkers σ} {q : WorkQueue Job} (h : s.Follows q) :
    { s with waits := s.waits.map Wait.wake, told := true }.Follows
      { q with workers := q.workers.map Worker.wake, told := true } where
  queue := h.queue
  stopping := h.stopping
  owed := h.owed
  told := rfl
  accepted := h.accepted
  finished := h.finished
  workers := by
    change q.workers.map Worker.wake =
      (s.transport.workers.zip (s.waits.map Wait.wake)).map workerOf
    rw [h.workers, List.zip_map_right, List.map_map, List.map_map]
    exact List.map_congr_left fun p _ => (workerOf_wake p).symm
  length := by
    rw [List.length_map]
    exact h.length
  awake := by
    intro w x hx hjob
    rw [List.getElem?_map, h.awake w x hx hjob]
    rfl

/-- A worker that looks at the queue takes a job, goes to sleep or leaves. -/
theorem Follows.look {s t : TcpWorkers σ} {q : WorkQueue Job} {w : Nat} (h : s.Follows q)
    (hwait : s.waits[w]? = some .awake) (hidle : s.transport.workers[w]? = some .idle)
    (hlook : s.look w = some t) : ∃ q', WorkQueue.Step q q' ∧ t.Follows q' := by
  have hworker : q.workers[w]? = some .awake := h.worker hidle hwait
  unfold TcpWorkers.look at hlook
  split at hlook
  · next hqueue =>
    -- nothing to do: leave if the transport is being destroyed, else wait
    split at hlook
    · next hclosed =>
      cases hlook
      exact ⟨_, .leave q hworker (h.queue.trans hqueue) (h.stopping.trans hclosed),
        h.setWait hidle .gone⟩
    · next hopen =>
      cases hlook
      exact ⟨_, .sleep q hworker (h.queue.trans hqueue)
        (h.stopping.trans (Bool.eq_false_iff.mpr hopen)), h.setWait hidle .asleep⟩
  · next job rest hqueue =>
    rw [TcpTransport.step, hidle, hqueue] at hlook
    cases hlook
    refine ⟨_, .take q hworker (h.queue.trans hqueue), ?_⟩
    exact h.setStage (t := { s.transport.goTo w (.started job) with queue := rest }) hwait rfl
      rfl rfl rfl h.finished

/-- The other side does nothing to the workers. -/
theorem Follows.ofPeers {s : TcpWorkers σ} {transport : TcpTransport σ} {q : WorkQueue Job}
    {a : TcpTransport.Action σ} (h : s.Follows q) (htransport : s.transport.step a = some transport)
    (ha : TcpWorkers.ofPeers a = true) : { s with transport }.Follows q := by
  obtain ⟨⟨hqueue, hstopping, hcalls⟩, hworkers, hcallbacks⟩ :=
    TcpTransport.same_workers htransport ha
  exact {
    queue := h.queue.trans hqueue.symm
    stopping := h.stopping.trans hstopping.symm
    owed := h.owed
    told := h.told
    accepted := h.accepted.trans (congrArg List.range hcalls.symm)
    finished := h.finished.trans (congrArg (·.map Prod.fst) hcallbacks.symm)
    workers := h.workers.trans (congrArg (fun l => (l.zip s.waits).map workerOf) hworkers.symm)
    length := (congrArg List.length hworkers).trans h.length
    awake := fun w x hx => h.awake w x (hworkers ▸ hx) }

/-- Every step of the pool is one of its queue, or several, or none. -/
theorem Follows.step {s t : TcpWorkers σ} {q : WorkQueue Job} {a : Action σ} (h : s.Follows q)
    (hstep : s.step a = some t) : ∃ q', ReflTransGen WorkQueue.Step q q' ∧ t.Follows q' := by
  cases a with
  | enqueue target rpc woken =>
      change (if _ then _ else _) = some t at hstep
      split at hstep
      · -- `enqueue` drops what comes after the destructor
        cases hstep
        exact ⟨q, .refl, h⟩
      · next hopen =>
        obtain ⟨transport, hsend, hnotify⟩ := Option.bind_eq_some_iff.mp hstep
        rw [TcpTransport.step, if_neg hopen] at hsend
        cases hsend
        -- the job goes in, and the notification it owes comes with it
        have hput := WorkQueue.Step.put q ⟨s.transport.calls, target, rpc⟩
          (h.stopping.trans (Bool.eq_false_iff.mpr hopen))
        rw [h.owed] at hput
        have hfollows := h.put ⟨s.transport.calls, target, rpc⟩ rfl
        obtain ⟨q', hq', hfollows'⟩ := hfollows.notifyOne hnotify
        exact ⟨q', .head hput (.single hq'), hfollows'⟩
  | close =>
      cases hstep
      refine ⟨_, .single (.close q), ?_⟩
      exact ⟨h.queue, rfl, h.owed, h.told, h.accepted, h.finished, h.workers, h.length, h.awake⟩
  | notifyAll =>
      obtain ⟨hclosed, hstep⟩ := Option.ite_none_right_eq_some.mp hstep
      cases hstep
      exact ⟨_, .single (.notifyAll q (h.stopping.trans hclosed)), h.notifyAll⟩
  | look w =>
      obtain ⟨⟨hwait, hidle⟩, hstep⟩ := Option.ite_none_right_eq_some.mp hstep
      obtain ⟨q', hq', hfollows⟩ := h.look hwait hidle hstep
      exact ⟨q', .single hq', hfollows⟩
  | wakeUp w =>
      obtain ⟨hwait, hstep⟩ := Option.ite_none_right_eq_some.mp hstep
      cases hstep
      have hidle := h.idle_of_asleep hwait
      exact ⟨_, .single (.wakeUp q (h.worker hidle hwait)), h.setWait hidle .awake⟩
  | inside a =>
      obtain ⟨ha, hstep⟩ := Option.ite_none_right_eq_some.mp hstep
      obtain ⟨transport, htransport, rfl⟩ := Option.map_eq_some_iff.mp hstep
      rcases ha with ha | ha
      · exact h.inside htransport ha
      · exact ⟨q, .refl, h.ofPeers htransport ha⟩

theorem follows_run {shardId workers : Nat} {peerAddrs : List NodeId}
    {peers : NodeId → PeerServer σ} {ok : TcpWorkers σ → Action σ → Prop} {s : TcpWorkers σ}
    (hrun : Run step ok (new shardId peerAddrs workers peers) s) :
    ∃ q : WorkQueue Job, q.Watched ∧ q.workers.length = workers ∧ s.Follows q := by
  refine hrun.invariant
    (P := fun s => ∃ q : WorkQueue Job, q.Watched ∧ q.workers.length = workers ∧ s.Follows q)
    ⟨_, .start workers, List.length_replicate, .new shardId peerAddrs workers peers⟩ ?_
  rintro s a t ⟨q, hwatched, hlength, hfollows⟩ - hstep
  obtain ⟨q', hsteps, hfollows'⟩ := hfollows.step hstep
  obtain ⟨hwatched', hlength'⟩ := hwatched.steps hsteps
  exact ⟨q', hwatched', hlength'.trans hlength, hfollows'⟩

/-! ## Coming to rest -/

/-- A worker acts. -/
def Action.own : Action σ → Bool
  | look _ => true
  | inside a => ofWorker a
  | _ => false

/-- Nobody sends or destroys the transport, and no worker wakes up by itself. -/
def Undisturbed (_ : TcpWorkers σ) : Action σ → Prop
  | .look _ | .inside _ => True
  | _ => False

/-- What is left to do for the workers. -/
def work (s : TcpWorkers σ) : Nat :=
  6 * s.transport.queue.length + (s.transport.workers.map Stage.weight).sum +
    (s.waits.map Wait.weight).sum

theorem sum_map_set {α : Type} (f : α → Nat) {l : List α} {i : Nat} {x : α} (h : l[i]? = some x)
    (y : α) : ((l.set i y).map f).sum + f x = (l.map f).sum + f y := by
  obtain ⟨rest, hold, hnew⟩ := exists_perm_set h
  rw [((hnew y).map f).sum_nat, (hold.map f).sum_nat, List.map_cons, List.map_cons, List.sum_cons,
    List.sum_cons]
  omega

theorem sum_map_set_lt {α : Type} {f : α → Nat} {l : List α} {i : Nat} {x y : α}
    (h : l[i]? = some x) (hlt : f y < f x) : ((l.set i y).map f).sum < (l.map f).sum := by
  have hsum := sum_map_set f h y
  omega

theorem work_lt {s t : TcpWorkers σ} {a : Action σ} (ha : a.own = true)
    (hstep : s.step a = some t) : t.work < s.work := by
  cases a with
  | enqueue | close | notifyAll | wakeUp => cases ha
  | look w =>
      obtain ⟨⟨hwait, hidle⟩, hstep⟩ := Option.ite_none_right_eq_some.mp hstep
      unfold look at hstep
      split at hstep
      · split at hstep
        · cases hstep
          exact Nat.add_lt_add_left (sum_map_set_lt hwait (by decide)) _
        · cases hstep
          exact Nat.add_lt_add_left (sum_map_set_lt hwait (by decide)) _
      · next job rest hqueue =>
        rw [TcpTransport.step, hidle, hqueue] at hstep
        cases hstep
        -- the job is heavier in the queue than with a worker
        have hsum : ((s.transport.workers.set w (.started job)).map Stage.weight).sum =
            (s.transport.workers.map Stage.weight).sum + 5 :=
          sum_map_set Stage.weight hidle (.started job)
        simp only [work, hqueue, List.length_cons, TcpTransport.goTo, hsum]
        omega
  | inside a =>
      obtain ⟨-, hstep⟩ := Option.ite_none_right_eq_some.mp hstep
      obtain ⟨transport, htransport, rfl⟩ := Option.map_eq_some_iff.mp hstep
      obtain ⟨⟨hqueue, -, -⟩, hadvances⟩ := TcpTransport.advances htransport ha
      -- a stage that goes on gets lighter, and a job that ends weighs nothing
      have hworkers : (transport.workers.map Stage.weight).sum <
          (s.transport.workers.map Stage.weight).sum := by
        cases hadvances with
        | goesOn hw hx hworkers hy hweight | finishes hw hx hweight hworkers =>
            rw [hworkers]
            exact sum_map_set_lt hw hweight
      simp only [work, hqueue]
      omega

/-- What the peers do leaves the workers as much to do. -/
theorem work_eq {s t : TcpWorkers σ} {a : Action σ} (hundisturbed : s.Undisturbed a)
    (ha : a.own = false) (hstep : s.step a = some t) : t.work = s.work := by
  cases a with
  | enqueue | close | notifyAll | wakeUp => cases hundisturbed
  | look w => cases ha
  | inside a =>
      obtain ⟨hallowed, hstep⟩ := Option.ite_none_right_eq_some.mp hstep
      obtain ⟨transport, htransport, rfl⟩ := Option.map_eq_some_iff.mp hstep
      have hpeers : ofPeers a = true := hallowed.resolve_left (Bool.not_eq_true _ ▸ ha)
      obtain ⟨⟨hqueue, -, -⟩, hworkers, -⟩ := TcpTransport.same_workers htransport hpeers
      simp only [work, hqueue, hworkers]

theorem own_add_work_le {s t : TcpWorkers σ} {trace : List (Taken (TcpWorkers σ) (Action σ))}
    (h : Trace step Undisturbed s trace t) :
    (trace.countP fun taken => taken.action.own) + t.work ≤ s.work := by
  induction h with
  | nil => exact Nat.le_of_eq (Nat.zero_add _)
  | @snoc trace u v a _ hok hstep ih =>
      rw [List.countP_append, List.countP_singleton]
      cases hown : a.own with
      | false =>
          rw [work_eq hok hown hstep]
          exact ih
      | true =>
          have hlt := work_lt hown hstep
          simp only [if_true]
          omega

omit [StateMachine σ] in
theorem look_ne_none {s : TcpWorkers σ} {w : Nat} [StateMachine σ]
    (hidle : s.transport.workers[w]? = some .idle) : s.look w ≠ none := by
  unfold look
  split
  · split <;> exact Option.some_ne_none _
  · next hqueue =>
    rw [TcpTransport.step, hidle, hqueue]
    exact Option.some_ne_none _

/-- A worker with a job can go on with it: connections may fail at any time. -/
theorem exists_own {s : TcpWorkers σ} {w : Nat} {x : Stage}
    (hw : s.transport.workers[w]? = some x) (hjob : x ≠ .idle) :
    ∃ a, ofWorker a = true ∧ s.transport.step a ≠ none := by
  cases x with
  | idle => exact absurd rfl hjob
  | started job =>
      refine ⟨.getConn w none, rfl, ?_⟩
      rw [TcpTransport.step, hw]
      dsimp only
      split
      · exact Option.some_ne_none _
      · split <;> exact Option.some_ne_none _
  | connected job fd =>
      refine ⟨.writeFrame w false, rfl, ?_⟩
      rw [TcpTransport.step, hw]
      exact Option.some_ne_none _
  | written job fd =>
      refine ⟨.readFrame w false, rfl, ?_⟩
      rw [TcpTransport.step, hw]
      exact Option.some_ne_none _
  | unsent job | unread job fd =>
      refine ⟨.dropConn w, rfl, ?_⟩
      rw [TcpTransport.step, hw]
      exact Option.some_ne_none _

/-- If no worker can act, all of them wait or have returned. -/
theorem Follows.rest {s : TcpWorkers σ} {q : WorkQueue Job} (h : s.Follows q)
    (hstuck : ∀ a, a.own = true → s.step a = none) :
    ∀ worker ∈ q.workers, worker = .asleep ∨ worker = .gone := by
  intro worker hworker
  rw [h.workers] at hworker
  obtain ⟨⟨x, wait⟩, hp, rfl⟩ := List.mem_map.mp hworker
  obtain ⟨w, hp⟩ := List.mem_iff_getElem?.mp hp
  obtain ⟨hx, hwait⟩ := List.getElem?_zip_eq_some.mp hp
  -- with a job it could go on
  have hidle : x = .idle := by
    by_contra hjob
    obtain ⟨a, ha, hstep⟩ := exists_own hx hjob
    have hnone := hstuck (.inside a) ha
    rw [TcpWorkers.step, if_pos (.inl ha), Option.map_eq_none_iff] at hnone
    exact hstep hnone
  subst hidle
  cases wait with
  -- awake it could look at the queue
  | awake =>
      have hnone := hstuck (.look w) rfl
      rw [TcpWorkers.step, if_pos ⟨hwait, hx⟩] at hnone
      exact absurd hnone (look_ne_none hx)
  | asleep => exact .inl rfl
  | gone => exact .inr rfl

end TcpWorkers

/-- **Every request has its callback once**: whatever was sent and whenever the workers
were notified, while nobody sends any more the workers take only so many steps, and
whenever they have come to rest each request that was accepted has been called back, once.
If the destructor has notified them by then, all workers have returned. -/
theorem every_call_called_back {σ : Type} [StateMachine σ] {shardId workers : Nat}
    {peerAddrs : List NodeId} {peers : NodeId → PeerServer σ} {s : TcpWorkers σ}
    (hrun : Run TcpWorkers.step (fun _ _ => True)
      (TcpWorkers.new shardId peerAddrs workers peers) s) (hworkers : 0 < workers) :
    (∀ trace t, Trace TcpWorkers.step TcpWorkers.Undisturbed s trace t →
      (trace.countP fun taken => taken.action.own) ≤ s.work) ∧
    ((∀ a : TcpWorkers.Action σ, a.own = true → s.step a = none) →
      (s.transport.callbacks.map fun p => p.1.call).Perm (List.range s.transport.calls) ∧
        (s.told = true → ∀ wait ∈ s.waits, wait = .gone)) := by
  refine ⟨fun trace t htrace => ?_, fun hstuck => ?_⟩
  · exact Nat.le_trans (Nat.le_add_right _ _) (TcpWorkers.own_add_work_le htrace)
  · -- the workers and their queue stand for one of `WorkQueue`, where nobody is left to run
    obtain ⟨q, hwatched, hlength, hfollows⟩ := TcpWorkers.follows_run hrun
    have hne : q.workers ≠ [] := by
      rw [← List.length_pos_iff, hlength]
      exact hworkers
    obtain ⟨hfinished, hgone⟩ := hwatched.rest hfollows.owed (hfollows.rest hstuck) hne
    refine ⟨?_, fun htold wait hwait => ?_⟩
    · -- the jobs there are the requests, by their numbers
      have hcalls := hfinished.map Job.call
      rw [hfollows.accepted, hfollows.finished, List.map_map] at hcalls
      exact hcalls
    · obtain ⟨w, hwait⟩ := List.mem_iff_getElem?.mp hwait
      have hlt : w < s.transport.workers.length := by
        rw [hfollows.length]
        exact (List.getElem?_eq_some_iff.mp hwait).1
      have hworker := hfollows.worker (List.getElem?_eq_getElem hlt) hwait
      exact TcpWorkers.wait_of_gone
        (hgone (hfollows.told.trans htold) _ (List.mem_of_getElem? hworker))

open TcpTransport.Action in
/-- Both workers of node 1 sleep when it sends twice.  The second request goes out on the
connection that the peer closed after the first, and the transport is destroyed before
the workers are back. -/
def closedBehind : TcpWorkers KvStore :=
  replay TcpWorkers.step ⟨twoWorkers, [.awake, .awake], false⟩
    [.look 0, .look 1, .enqueue 2 (.requestVote ⟨1, 1, 0, 0⟩ 2) (some 1),
      .enqueue 2 (.appendEntries ⟨1, 1, 0, 0, [], 0⟩) (some 0), .look 1, .look 0,
      .inside (getConn 1 (some 5)), .inside (writeFrame 1 true), .inside (connLoop 5),
      .inside (readFrame 1 true), .inside (breaks 5 0), .inside (getConn 0 none), .close,
      .inside (writeFrame 0 true), .inside (readFrame 0 false), .inside (dropConn 0), .look 0,
      .look 1, .notifyAll]

/-- A worker without a job that does not look for one has nothing to do. -/
theorem TcpWorkers.step_eq_none {σ : Type} [StateMachine σ] {s : TcpWorkers σ}
    (hidle : ∀ x ∈ s.transport.workers, x = .idle) (hwaits : .awake ∉ s.waits)
    {a : TcpWorkers.Action σ} (ha : a.own = true) : s.step a = none := by
  have hworker : ∀ w : Nat,
      s.transport.workers[w]? = none ∨ s.transport.workers[w]? = some .idle := by
    intro w
    cases hw : s.transport.workers[w]? with
    | none => exact .inl rfl
    | some x => exact .inr (congrArg some (hidle x (List.mem_of_getElem? hw)))
  cases a with
  | enqueue | close | notifyAll | wakeUp => cases ha
  | look w => exact if_neg fun h => hwaits (List.mem_of_getElem? h.1)
  | inside a =>
      rw [TcpWorkers.step, if_pos (.inl ha), Option.map_eq_none_iff]
      cases a with
      | send | stop | take | connLoop | breaks | peer => cases ha
      | getConn w | writeFrame w | readFrame w | dropConn w =>
          obtain h | h := hworker w <;> rw [TcpTransport.step, h]

/-- Both requests have been called back, the second without an answer, and both workers
have returned. -/
theorem every_call_called_back_of_closedBehind :
    (closedBehind.transport.callbacks.map fun p => (p.1.call, p.2.isSome)) =
      [(0, true), (1, false)] ∧
    (closedBehind.transport.callbacks.map fun p => p.1.call).Perm [0, 1] ∧
      ∀ wait ∈ closedBehind.waits, wait = .gone := by
  have hrun : Run TcpWorkers.step (fun _ _ => True) ⟨twoWorkers, [.awake, .awake], false⟩
      closedBehind := run_replay (by decide +kernel)
  have hrest := (every_call_called_back hrun (by decide)).2 fun a ha =>
    TcpWorkers.step_eq_none (by decide +kernel) (by decide +kernel) ha
  exact ⟨by decide +kernel, hrest.1, hrest.2 (by decide +kernel)⟩

end KvRaft
