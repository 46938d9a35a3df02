import Mathlib.Data.List.Basic
import Mathlib.Data.List.Perm.Basic
import Mathlib.Logic.Relation

/-!
# KvRaft.WorkQueue

Workers that share a queue and wait on a condition variable while it is empty.
A worker that is awake looks at the queue once it has the lock: it takes a job, leaves
if the queue is being closed, or goes to sleep.  Each job that is put in is followed by
one notification, which may come later than the job.

* `Watched` — the invariant: while somebody sleeps, the jobs in the queue are no more
  than the notifications to come and the workers awake, so no wakeup is lost;
* `Watched.rest` — when nobody is left to run, every job is finished, and after the
  queue was closed and everybody notified, all workers are gone.
-/

namespace KvRaft

/-- Where a worker stands. -/
inductive Worker (J : Type)
  | awake
  | asleep
  | busy (job : J)
  | gone

namespace Worker

variable {J : Type}

def isAwake : Worker J → Bool
  | awake => true
  | _ => false

def job? : Worker J → Option J
  | busy job => some job
  | _ => none

def wake : Worker J → Worker J
  | asleep => awake
  | worker => worker

@[simp] theorem countP_awake (l : List (Worker J)) :
    (awake :: l).countP isAwake = l.countP isAwake + 1 := List.countP_cons_of_pos rfl

@[simp] theorem countP_asleep (l : List (Worker J)) :
    (asleep :: l).countP isAwake = l.countP isAwake := List.countP_cons_of_neg Bool.false_ne_true

@[simp] theorem countP_busy (job : J) (l : List (Worker J)) :
    (busy job :: l).countP isAwake = l.countP isAwake := List.countP_cons_of_neg Bool.false_ne_true

@[simp] theorem filterMap_awake (l : List (Worker J)) :
    (awake :: l).filterMap job? = l.filterMap job? := rfl

@[simp] theorem filterMap_busy (job : J) (l : List (Worker J)) :
    (busy job :: l).filterMap job? = job :: l.filterMap job? := rfl

theorem job?_wake (worker : Worker J) : worker.wake.job? = worker.job? := by
  cases worker <;> rfl

theorem asleep_ne_wake (worker : Worker J) : asleep ≠ worker.wake := by
  cases worker <;> exact fun h => by cases h

theorem eq_gone_of_wake {worker : Worker J} (h : worker.wake = gone) : worker = gone := by
  cases worker <;> first | exact h | cases h

end Worker

structure WorkQueue (J : Type) where
  queue : List J
  stopping : Bool
  workers : List (Worker J)
  /-- the calls of `notify_one` that are still to come -/
  owed : Nat
  /-- everybody was notified after the queue was closed -/
  told : Bool
  /-- all jobs that were ever put in -/
  accepted : List J
  finished : List J

/-- The element at a place and the rest, which stays when the element is replaced. -/
theorem exists_perm_set {α : Type} {l : List α} {i : Nat} {x : α} (h : l[i]? = some x) :
    ∃ rest, l.Perm (x :: rest) ∧ ∀ y, (l.set i y).Perm (y :: rest) := by
  obtain ⟨hi, rfl⟩ := List.getElem?_eq_some_iff.mp h
  exact ⟨l.eraseIdx i, (List.getElem_cons_eraseIdx_perm hi).symm, List.set_perm_cons_eraseIdx hi⟩

namespace WorkQueue

variable {J : Type}

/-- Worker `w` comes to stand at `worker`. -/
def goTo (s : WorkQueue J) (w : Nat) (worker : Worker J) : WorkQueue J :=
  { s with workers := s.workers.set w worker }

section

variable (s : WorkQueue J) (w : Nat) (worker : Worker J)

@[simp] theorem goTo_queue : (s.goTo w worker).queue = s.queue := rfl

@[simp] theorem goTo_owed : (s.goTo w worker).owed = s.owed := rfl

@[simp] theorem goTo_accepted : (s.goTo w worker).accepted = s.accepted := rfl

@[simp] theorem goTo_finished : (s.goTo w worker).finished = s.finished := rfl

end

inductive Step : WorkQueue J → WorkQueue J → Prop
  | put (s : WorkQueue J) (job : J) (hopen : s.stopping = false) :
      Step s { s with
        queue := s.queue ++ [job], owed := s.owed + 1, accepted := s.accepted ++ [job] }
  | notifyOne (s : WorkQueue J) {n w : Nat} (howed : s.owed = n + 1)
      (hw : s.workers[w]? = some .asleep) : Step s { s.goTo w .awake with owed := n }
  | notifyNobody (s : WorkQueue J) {n : Nat} (howed : s.owed = n + 1)
      (hnone : Worker.asleep ∉ s.workers) : Step s { s with owed := n }
  | take (s : WorkQueue J) {w : Nat} {job : J} {rest : List J}
      (hw : s.workers[w]? = some .awake) (hqueue : s.queue = job :: rest) :
      Step s { s.goTo w (.busy job) with queue := rest }
  | sleep (s : WorkQueue J) {w : Nat} (hw : s.workers[w]? = some .awake) (hqueue : s.queue = [])
      (hopen : s.stopping = false) : Step s (s.goTo w .asleep)
  | leave (s : WorkQueue J) {w : Nat} (hw : s.workers[w]? = some .awake) (hqueue : s.queue = [])
      (hclosed : s.stopping = true) : Step s (s.goTo w .gone)
  | finish (s : WorkQueue J) {w : Nat} {job : J} (hw : s.workers[w]? = some (.busy job)) :
      Step s { s.goTo w .awake with finished := s.finished ++ [job] }
  /-- for no reason -/
  | wakeUp (s : WorkQueue J) {w : Nat} (hw : s.workers[w]? = some .asleep) :
      Step s (s.goTo w .awake)
  | close (s : WorkQueue J) : Step s { s with stopping := true }
  | notifyAll (s : WorkQueue J) (hclosed : s.stopping = true) :
      Step s { s with workers := s.workers.map Worker.wake, told := true }

structure Watched (s : WorkQueue J) : Prop where
  awoken : Worker.asleep ∈ s.workers →
    s.queue.length ≤ s.owed + s.workers.countP Worker.isAwake
  told : s.told = true → s.stopping = true ∧ Worker.asleep ∉ s.workers
  left : Worker.gone ∈ s.workers → s.stopping = true ∧ s.queue = []
  conserved : s.accepted.Perm (s.finished ++ (s.workers.filterMap Worker.job? ++ s.queue))

theorem Watched.start (n : Nat) :
    Watched (⟨[], false, List.replicate n .awake, 0, false, [], []⟩ : WorkQueue J) where
  awoken := fun h => by cases List.eq_of_mem_replicate h
  told := nofun
  left := fun h => by cases List.eq_of_mem_replicate h
  conserved := by
    have hnone : (List.replicate n (Worker.awake : Worker J)).filterMap Worker.job? = [] :=
      List.filterMap_eq_nil_iff.mpr fun x hx => by rw [List.eq_of_mem_replicate hx]; rfl
    rw [hnone]
    exact .refl _

/-- The order of the workers does not matter. -/
theorem Watched.of_perm {s : WorkQueue J} {workers : List (Worker J)} (h : s.Watched)
    (hperm : s.workers.Perm workers) : { s with workers }.Watched where
  awoken := by
    rw [← hperm.mem_iff, ← hperm.countP_eq]
    exact h.awoken
  told := by
    rw [← hperm.mem_iff]
    exact h.told
  left := by
    rw [← hperm.mem_iff]
    exact h.left
  conserved :=
    h.conserved.trans (((hperm.filterMap Worker.job?).append_right s.queue).append_left s.finished)

/-- One worker moves: it is enough to look at it in front of the others. -/
theorem Watched.goTo {s t : WorkQueue J} {w : Nat} {x y : Worker J} (h : s.Watched)
    (hw : s.workers[w]? = some x) (ht : t.workers = s.workers.set w y)
    (hmove : ∀ rest, { s with workers := x :: rest }.Watched →
      { t with workers := y :: rest }.Watched) : t.Watched := by
  obtain ⟨rest, hold, hnew⟩ := exists_perm_set hw
  have ht' := (hmove rest (h.of_perm hold)).of_perm (hnew y).symm
  rwa [← ht] at ht'

theorem Watched.step {s t : WorkQueue J} (h : s.Watched) (hstep : Step s t) : t.Watched := by
  cases hstep with
  | put job hopen =>
      refine ⟨fun hasleep => ?_, h.told, fun hgone => ?_, ?_⟩
      · -- one job more, one notification more
        have hle := h.awoken hasleep
        simp only [List.length_append, List.length_singleton]
        omega
      · have hclosed := (h.left hgone).1
        rw [hopen] at hclosed
        cases hclosed
      · have hconserved := h.conserved.append_right [job]
        simpa only [List.append_assoc] using hconserved
  -- a sleeper is awake in place of the notification
  | notifyOne howed hw =>
      refine h.goTo hw rfl fun rest h => ⟨fun _ => ?_, fun htold => ?_, fun hgone => ?_, ?_⟩
      · have hle := h.awoken List.mem_cons_self
        simp only [howed, Worker.countP_asleep, Worker.countP_awake, goTo_queue] at hle ⊢
        omega
      · exact absurd List.mem_cons_self (h.told htold).2
      · exact h.left (by simpa using hgone)
      · exact h.conserved
  | notifyNobody howed hnone =>
      exact ⟨fun hasleep => absurd hasleep hnone, h.told, h.left, h.conserved⟩
  -- a worker that was awake is busy, with one job less in the queue
  | take hw hqueue =>
      refine h.goTo hw rfl fun rest h => ⟨fun hasleep => ?_, fun htold => ?_, fun hgone => ?_, ?_⟩
      · have hle := h.awoken (by simpa using hasleep)
        simp only [hqueue, List.length_cons, Worker.countP_awake, Worker.countP_busy, goTo_owed]
          at hle ⊢
        omega
      · exact ⟨(h.told htold).1, by simpa using (h.told htold).2⟩
      · have hempty := (h.left (by simpa using hgone)).2
        rw [hqueue] at hempty
        cases hempty
      · refine h.conserved.trans (.append_left _ ?_)
        simp [hqueue]
  -- it sleeps only on an empty queue
  | sleep hw hqueue hopen =>
      refine h.goTo hw rfl fun rest h => ⟨fun _ => ?_, fun htold => ?_, fun hgone => ?_, ?_⟩
      · simp [hqueue]
      · have hclosed := (h.told htold).1
        rw [hopen] at hclosed
        cases hclosed
      · exact h.left (by simpa using hgone)
      · exact h.conserved
  | leave hw hqueue hclosed =>
      refine h.goTo hw rfl fun rest h => ⟨fun _ => ?_, fun htold => ?_, fun _ => ?_, ?_⟩
      · simp [hqueue]
      · exact ⟨hclosed, by simpa using (h.told htold).2⟩
      · exact ⟨hclosed, hqueue⟩
      · exact h.conserved
  -- the finished job moves from the worker to those finished
  | finish hw =>
      refine h.goTo hw rfl fun rest h => ⟨fun hasleep => ?_, fun htold => ?_, fun hgone => ?_, ?_⟩
      · have hle := h.awoken (by simpa using hasleep)
        simp only [Worker.countP_busy, Worker.countP_awake, goTo_queue, goTo_owed] at hle ⊢
        omega
      · exact ⟨(h.told htold).1, by simpa using (h.told htold).2⟩
      · exact h.left (by simpa using hgone)
      · have hconserved := h.conserved
        simpa using hconserved
  -- a spurious wakeup only adds somebody who looks
  | wakeUp hw =>
      refine h.goTo hw rfl fun rest h => ⟨fun _ => ?_, fun htold => ?_, fun hgone => ?_, ?_⟩
      · have hle := h.awoken List.mem_cons_self
        simp only [Worker.countP_asleep, Worker.countP_awake, goTo_queue, goTo_owed] at hle ⊢
        omega
      · exact absurd List.mem_cons_self (h.told htold).2
      · exact h.left (by simpa using hgone)
      · exact h.conserved
  | close =>
      exact ⟨h.awoken, fun htold => ⟨rfl, (h.told htold).2⟩, fun hgone => ⟨rfl, (h.left hgone).2⟩,
        h.conserved⟩
  | notifyAll hclosed =>
      -- after `notify_all` nobody sleeps
      have hnone : Worker.asleep ∉ s.workers.map Worker.wake := by
        intro hmem
        obtain ⟨worker, -, heq⟩ := List.mem_map.mp hmem
        exact worker.asleep_ne_wake heq.symm
      refine ⟨fun hasleep => absurd hasleep hnone, fun _ => ⟨hclosed, hnone⟩, fun hgone => ?_, ?_⟩
      · obtain ⟨worker, hworker, heq⟩ := List.mem_map.mp hgone
        exact h.left (Worker.eq_gone_of_wake heq ▸ hworker)
      · have hjobs : (s.workers.map Worker.wake).filterMap Worker.job? =
            s.workers.filterMap Worker.job? := by
          rw [List.filterMap_map]
          exact congrArg (s.workers.filterMap ·) (funext Worker.job?_wake)
        rw [hjobs]
        exact h.conserved

theorem Step.length_eq {s t : WorkQueue J} (h : Step s t) :
    t.workers.length = s.workers.length := by
  cases h with
  | notifyOne | take | sleep | leave | finish | wakeUp => exact List.length_set
  | put | notifyNobody | close => rfl
  | notifyAll => exact List.length_map _

theorem Watched.steps {s t : WorkQueue J} (h : s.Watched)
    (hsteps : Relation.ReflTransGen Step s t) :
    t.Watched ∧ t.workers.length = s.workers.length := by
  induction hsteps with
  | refl => exact ⟨h, rfl⟩
  | tail _ hstep ih => exact ⟨ih.1.step hstep, hstep.length_eq.trans ih.2⟩

/-- **When nobody is left to run**, the queue is empty and every job finished; nobody
waits any more if everybody was notified of the closing. -/
theorem Watched.rest {s : WorkQueue J} (h : s.Watched) (howed : s.owed = 0)
    (hrest : ∀ worker ∈ s.workers, worker = .asleep ∨ worker = .gone) (hne : s.workers ≠ []) :
    s.finished.Perm s.accepted ∧ (s.told = true → ∀ worker ∈ s.workers, worker = .gone) := by
  have hawake : s.workers.countP Worker.isAwake = 0 := by
    rw [List.countP_eq_zero]
    intro worker hworker
    rcases hrest worker hworker with rfl | rfl <;> exact Bool.false_ne_true
  -- a sleeper with nobody awake means an empty queue, and so does somebody who left
  have hqueue : s.queue = [] := by
    obtain ⟨worker, hworker⟩ := List.exists_mem_of_ne_nil _ hne
    rcases hrest worker hworker with rfl | rfl
    · have hle := h.awoken hworker
      rw [howed, hawake] at hle
      exact List.length_eq_zero_iff.mp (Nat.le_zero.mp hle)
    · exact (h.left hworker).2
  have hjobs : s.workers.filterMap Worker.job? = [] := by
    rw [List.filterMap_eq_nil_iff]
    intro worker hworker
    rcases hrest worker hworker with rfl | rfl <;> rfl
  refine ⟨?_, fun htold worker hworker => (hrest worker hworker).resolve_left ?_⟩
  · have hconserved := h.conserved
    rw [hjobs, hqueue, List.append_nil, List.append_nil] at hconserved
    exact hconserved.symm
  · -- nobody sleeps once all were told
    rintro rfl
    exact (h.told htold).2 hworker

end WorkQueue

end KvRaft
