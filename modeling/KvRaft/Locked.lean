import KvRaft.Run

/-!
# KvRaft.Locked

Programs whose threads share a state and one lock.  A program is the tree of its
atomic steps (`Prog`), so that what it does next may depend on what it has read;
`Workers` is a shared state with threads in the middle of their programs, any of
which may take its next step.

A `Discipline` says what a step may do to the shared state with the lock and without
it, and what holds while nobody has the lock.  `Prog.Safe` is the rule for a program
that keeps to it: what the program knows of the shared state at some point must not
be disturbed by what the other threads may do there.

* `Workers.Safe.step` — threads that keep to the discipline go on to do so, whatever
  the schedule, and know what they are entitled to;
* `Workers.run_alone` — a thread that nobody disturbs comes to its end and does what
  `Prog.exec` computes.
-/

namespace KvRaft

/-- A program over a shared state `γ` that hands out values of type `ο` and returns
an `α`. -/
inductive Prog (γ ο α : Type) : Type
  | done (a : α)
  | lock (next : Prog γ ο α)
  | unlock (next : Prog γ ο α)
  /-- the shared state is changed by `f`; `next` sees it as it was before -/
  | act (f : γ → γ) (next : γ → Prog γ ο α)
  | emit (o : ο) (next : Prog γ ο α)

namespace Prog

variable {γ ο α β : Type}

def bind : Prog γ ο α → (α → Prog γ ο β) → Prog γ ο β
  | done a, q => q a
  | lock next, q => lock (next.bind q)
  | unlock next, q => unlock (next.bind q)
  | act f next, q => act f fun s => (next s).bind q
  | emit o next, q => emit o (next.bind q)

instance : Monad (Prog γ ο) where
  pure := done
  bind := bind

/-- The program alone, from a shared state on. -/
def exec : Prog γ ο α → γ → γ × α
  | done a, s => (s, a)
  | lock next, s | unlock next, s | emit _ next, s => next.exec s
  | act f next, s => (next s).exec (f s)

def acquire : Prog γ ο Unit := lock (done ())

def release : Prog γ ο Unit := unlock (done ())

def read (f : γ → β) : Prog γ ο β := act id fun s => done (f s)

def modify (f : γ → γ) : Prog γ ο Unit := act f fun _ => done ()

/-- A step that changes the state and returns something of it. -/
def update (f : γ → γ × β) : Prog γ ο β := act (fun s => (f s).1) fun s => done (f s).2

def give (o : ο) : Prog γ ο Unit := emit o (done ())

section Exec

variable (s : γ)

@[simp] theorem exec_pure (a : α) : (pure a : Prog γ ο α).exec s = (s, a) := rfl

@[simp] theorem exec_bind (p : Prog γ ο α) (q : α → Prog γ ο β) :
    (p >>= q).exec s = (q (p.exec s).2).exec (p.exec s).1 := by
  change (p.bind q).exec s = _
  induction p generalizing s with
  | done a => rfl
  | lock next ih => exact ih s
  | unlock next ih => exact ih s
  | act f next ih => exact ih s (f s)
  | emit o next ih => exact ih s

@[simp] theorem exec_acquire : (acquire : Prog γ ο Unit).exec s = (s, ()) := rfl

@[simp] theorem exec_release : (release : Prog γ ο Unit).exec s = (s, ()) := rfl

@[simp] theorem exec_read (f : γ → β) : (read f : Prog γ ο β).exec s = (s, f s) := rfl

@[simp] theorem exec_modify (f : γ → γ) : (modify f : Prog γ ο Unit).exec s = (f s, ()) := rfl

@[simp] theorem exec_give (o : ο) : (give o : Prog γ ο Unit).exec s = (s, ()) := rfl

end Exec

end Prog

/-! ## The discipline -/

/-- What threads may do to the shared state. -/
structure Discipline (γ ο : Type) where
  /-- a step without the lock -/
  free : γ → γ → Prop
  /-- a step with the lock -/
  locked : γ → γ → Prop
  /-- holds while nobody has the lock -/
  inv : γ → Prop
  /-- holds where a value is handed out -/
  good : γ → ο → Prop
  free_refl : ∀ s, free s s
  locked_refl : ∀ s, locked s s
  inv_free : ∀ s t, inv s → free s t → inv t

namespace Discipline

variable {γ ο α β : Type} (D : Discipline γ ο)

def step : Bool → γ → γ → Prop
  | true => D.locked
  | false => D.free

theorem step_refl (held : Bool) (s : γ) : D.step held s s := by
  cases held with
  | true => exact D.locked_refl s
  | false => exact D.free_refl s

/-- The other threads leave it alone: if this one has the lock, they do not. -/
structure Stable (held : Bool) (P : γ → Prop) : Prop where
  free : ∀ s t, P s → D.free s t → P t
  locked : held = false → ∀ s t, P s → D.locked s t → P t

/-- What a thread knows that knows nothing. -/
def top : γ → Prop := fun _ => True

theorem stable_top (held : Bool) : D.Stable held (top : γ → Prop) :=
  ⟨fun _ _ _ _ => trivial, fun _ _ _ _ _ => trivial⟩

theorem stable_inv : D.Stable true D.inv :=
  ⟨D.inv_free, fun h => by cases h⟩

end Discipline

/-- A program that keeps to the discipline, from a point where it has the lock or
not and knows `P` of the shared state; `R` is asked of the point where it ends. -/
def Prog.Safe {γ ο α : Type} (D : Discipline γ ο) :
    Prog γ ο α → Bool → (γ → Prop) → (Bool → (γ → Prop) → α → Prop) → Prop
  | .done a, held, P, R => R held P a
  | .lock next, held, P, R => held = false ∧ next.Safe D true (fun s => P s ∧ D.inv s) R
  | .unlock next, held, P, R =>
      held = true ∧ (∀ s, P s → D.inv s) ∧
        ∃ Q, (∀ s, P s → Q s) ∧ D.Stable false Q ∧ next.Safe D false Q R
  | .act f next, held, P, R =>
      ∀ s, P s → D.step held s (f s) ∧
        ∃ Q, Q (f s) ∧ D.Stable held Q ∧ (next s).Safe D held Q R
  | .emit o next, held, P, R => (∀ s, P s → D.good s o) ∧ next.Safe D held P R

namespace Prog

open Discipline

variable {γ ο α β : Type} {D : Discipline γ ο} {held : Bool} {P Q : γ → Prop}
  {R : Bool → (γ → Prop) → α → Prop}

theorem safe_bind {p : Prog γ ο α} {q : α → Prog γ ο β} {R : Bool → (γ → Prop) → β → Prop} :
    (p >>= q).Safe D held P R ↔ p.Safe D held P fun held P a => (q a).Safe D held P R := by
  change (p.bind q).Safe D held P R ↔ _
  induction p generalizing held P with
  | done a => rfl
  | lock next ih => exact and_congr_right fun _ => ih
  | unlock next ih =>
      refine and_congr_right fun _ => and_congr_right fun _ => exists_congr fun Q => ?_
      exact and_congr_right fun _ => and_congr_right fun _ => ih
  | act f next ih =>
      refine forall_congr' fun s => forall_congr' fun _ => and_congr_right fun _ => ?_
      exact exists_congr fun Q => and_congr_right fun _ => and_congr_right fun _ => ih s
  | emit o next ih => exact and_congr_right fun _ => ih

theorem safe_acquire {R : Bool → (γ → Prop) → Unit → Prop} (h : R true D.inv ()) :
    (acquire : Prog γ ο Unit).Safe D false top R := by
  refine ⟨rfl, ?_⟩
  have heq : (fun s => top s ∧ D.inv s) = D.inv := funext fun s => propext (and_iff_right trivial)
  rw [heq]
  exact h

/-- The lock is given back; what is known for good may be kept. -/
theorem safe_release {R : Bool → (γ → Prop) → Unit → Prop} (Q : γ → Prop)
    (hinv : ∀ s, P s → D.inv s) (hQ : ∀ s, P s → Q s) (hstable : D.Stable false Q)
    (h : R false Q ()) : (release : Prog γ ο Unit).Safe D true P R :=
  ⟨rfl, hinv, Q, hQ, hstable, h⟩

theorem safe_release_inv {R : Bool → (γ → Prop) → Unit → Prop} (h : R false top ()) :
    (release : Prog γ ο Unit).Safe D true D.inv R :=
  safe_release top (fun _ h => h) (fun _ _ => trivial) (D.stable_top false) h

/-- A read, after which more may be known. -/
theorem safe_read {f : γ → α}
    (h : ∀ s, P s → ∃ Q, Q s ∧ D.Stable held Q ∧ R held Q (f s)) :
    (read f : Prog γ ο α).Safe D held P R :=
  fun s hs => ⟨D.step_refl held s, h s hs⟩

/-- A read of which nothing is kept. -/
theorem safe_read_same {f : γ → α} (hP : D.Stable held P) (h : ∀ a, R held P a) :
    (read f : Prog γ ο α).Safe D held P R :=
  safe_read fun s hs => ⟨P, hs, hP, h (f s)⟩

theorem safe_modify {f : γ → γ} {R : Bool → (γ → Prop) → Unit → Prop} (Q : γ → Prop)
    (hstable : D.Stable held Q) (hf : ∀ s, P s → D.step held s (f s) ∧ Q (f s))
    (h : R held Q ()) : (modify f : Prog γ ο Unit).Safe D held P R :=
  fun s hs => ⟨(hf s hs).1, Q, (hf s hs).2, hstable, h⟩

theorem safe_update {f : γ → γ × α} (Q : γ → Prop) (hstable : D.Stable held Q)
    (hf : ∀ s, P s → D.step held s (f s).1 ∧ Q (f s).1) (h : ∀ a, R held Q a) :
    (update f : Prog γ ο α).Safe D held P R :=
  fun s hs => ⟨(hf s hs).1, Q, (hf s hs).2, hstable, h (f s).2⟩

theorem safe_give {o : ο} {R : Bool → (γ → Prop) → Unit → Prop} (hgood : ∀ s, P s → D.good s o)
    (h : R held P ()) : (give o : Prog γ ο Unit).Safe D held P R :=
  ⟨hgood, h⟩

end Prog

/-! ## Threads -/

structure Workers (γ ο : Type) where
  shared : γ
  /-- the thread that has the lock -/
  owner : Option Nat
  threads : List (Prog γ ο Unit)
  out : List ο

namespace Workers

variable {γ ο : Type} {w w' : Workers γ ο} {i : Nat}

/-- Thread `i` takes its next step; it waits for a lock that is taken. -/
def step (w : Workers γ ο) (i : Nat) : Option (Workers γ ο) :=
  match w.threads[i]? with
  | none | some (.done _) => none
  | some (.lock next) =>
      if w.owner = none then some { w with owner := some i, threads := w.threads.set i next }
      else none
  | some (.unlock next) => some { w with owner := none, threads := w.threads.set i next }
  | some (.act f next) =>
      some { w with shared := f w.shared, threads := w.threads.set i (next w.shared) }
  | some (.emit o next) => some { w with threads := w.threads.set i next, out := w.out ++ [o] }

def start (w : Workers γ ο) (p : Prog γ ο Unit) : Workers γ ο :=
  { w with threads := w.threads ++ [p] }

/-- Whether thread `i` has the lock. -/
def holds (w : Workers γ ο) (i : Nat) : Bool := decide (w.owner = some i)

/-- What is asked of a thread's end: the lock was given back. -/
def Ended (held : Bool) (_ : γ → Prop) (_ : Unit) : Prop := held = false

/-- A thread that keeps to the discipline and knows something true. -/
def Knows (D : Discipline γ ο) (shared : γ) (held : Bool) (p : Prog γ ο Unit) : Prop :=
  ∃ P, P shared ∧ D.Stable held P ∧ p.Safe D held P Ended

structure Safe (D : Discipline γ ο) (w : Workers γ ο) : Prop where
  inv : w.owner = none → D.inv w.shared
  owner : ∀ i, w.owner = some i → i < w.threads.length
  thread : ∀ i p, w.threads[i]? = some p → Knows D w.shared (w.holds i) p

variable {D : Discipline γ ο}

theorem Knows.mono {shared shared' : γ} {held held' : Bool} {p : Prog γ ο Unit}
    (h : Knows D shared held p) (hheld : held' = held)
    (hstep : D.free shared shared' ∨ held = false ∧ D.locked shared shared') :
    Knows D shared' held' p := by
  obtain ⟨P, hP, hstable, hsafe⟩ := h
  subst hheld
  refine ⟨P, ?_, hstable, hsafe⟩
  rcases hstep with hfree | ⟨hheld, hlocked⟩
  · exact hstable.free _ _ hP hfree
  · exact hstable.locked hheld _ _ hP hlocked

/-- Thread `i` has gone on, and the others still know what they knew. -/
theorem Safe.set (h : w.Safe D) {p : Prog γ ο Unit} {shared : γ} {owner : Option Nat}
    {out : List ο} (hi : i < w.threads.length) (hinv : owner = none → D.inv shared)
    (howner : ∀ j, j ≠ i → (owner = some j ↔ w.owner = some j))
    (hstep : D.step (w.holds i) w.shared shared)
    (hp : Knows D shared (decide (owner = some i)) p) :
    Safe D ⟨shared, owner, w.threads.set i p, out⟩ := by
  refine ⟨hinv, fun j hj => ?_, fun j q hq => ?_⟩
  · rw [List.length_set]
    by_cases hji : j = i
    · exact hji ▸ hi
    · exact h.owner j ((howner j hji).mp hj)
  · -- other threads keep what they know, under either kind of step
    by_cases hji : j = i
    · subst hji
      rw [List.getElem?_set_self hi] at hq
      cases hq
      exact hp
    · rw [List.getElem?_set_ne (Ne.symm hji)] at hq
      refine (h.thread j q hq).mono (decide_eq_decide.mpr (howner j hji)) ?_
      cases hheld : w.holds i with
      | false =>
          rw [hheld] at hstep
          exact .inl hstep
      | true =>
          -- the lock is with thread `i`, so not with this one
          rw [hheld] at hstep
          refine .inr ⟨decide_eq_false fun hj => hji ?_, hstep⟩
          have hi := of_decide_eq_true hheld
          rw [hj] at hi
          exact Option.some.inj hi

/-- **The discipline is kept**, whichever thread goes on. -/
theorem Safe.step (h : w.Safe D) (hstep : w.step i = some w') : w'.Safe D := by
  unfold Workers.step at hstep
  split at hstep
  next => cases hstep
  next => cases hstep
  next next hthread =>
    obtain ⟨P, hP, hstable, hheld, hsafe⟩ := h.thread i _ hthread
    split at hstep
    -- the thread takes the free lock, and with it the invariant
    next hnone =>
      cases hstep
      refine h.set (List.getElem?_eq_some_iff.mp hthread).1 (fun h => by cases h)
        (fun j hji => ?_) (D.step_refl _ _)
        ⟨fun s => P s ∧ D.inv s, ⟨hP, h.inv hnone⟩, ?_, ?_⟩
      · rw [hnone]
        exact iff_of_false (fun h => hji (Option.some.inj h).symm) (fun h => by cases h)
      · rw [decide_eq_true rfl]
        exact ⟨fun s t hs hfree => ⟨hstable.free s t hs.1 hfree, D.inv_free s t hs.2 hfree⟩,
          fun h => by cases h⟩
      · rw [decide_eq_true rfl]
        exact hsafe
    next => cases hstep
  -- it gives the lock back, and the invariant with it
  next next hthread =>
    obtain ⟨P, hP, hstable, hheld, hinv, Q, hQ, hstable', hsafe⟩ := h.thread i _ hthread
    cases hstep
    have howner := of_decide_eq_true hheld
    refine h.set (List.getElem?_eq_some_iff.mp hthread).1 (fun _ => hinv _ hP) (fun j hji => ?_)
      (D.step_refl _ _) ⟨Q, hQ _ hP, hstable', hsafe⟩
    rw [howner]
    exact iff_of_false (fun h => by cases h) fun h => hji (Option.some.inj h).symm
  -- it acts on the shared state, with the lock or without
  next f next hthread =>
    obtain ⟨P, hP, hstable, hsafe⟩ := h.thread i _ hthread
    obtain ⟨hf, Q, hQ, hstable', hnext⟩ := hsafe _ hP
    cases hstep
    refine h.set (List.getElem?_eq_some_iff.mp hthread).1 (fun hnone => ?_) (fun _ _ => Iff.rfl) hf
      ⟨Q, hQ, hstable', hnext⟩
    have hheld : w.holds i = false := decide_eq_false (by rw [hnone]; exact fun h => by cases h)
    rw [hheld] at hf
    exact D.inv_free _ _ (h.inv hnone) hf
  -- an output changes nothing shared
  next o next hthread =>
    obtain ⟨P, hP, hstable, -, hnext⟩ := h.thread i _ hthread
    cases hstep
    exact h.set (List.getElem?_eq_some_iff.mp hthread).1 h.inv (fun _ _ => Iff.rfl)
      (D.step_refl _ _) ⟨P, hP, hstable, hnext⟩

/-- A new thread. -/
theorem Safe.start (h : w.Safe D) {p : Prog γ ο Unit}
    (hp : p.Safe D false Discipline.top Ended) : (w.start p).Safe D := by
  refine ⟨h.inv, fun j hj => ?_, fun j q hq => ?_⟩
  · have := h.owner j hj
    simp only [Workers.start, List.length_append]
    omega
  · change (w.threads ++ [p])[j]? = some q at hq
    rcases Nat.lt_or_ge j w.threads.length with hlt | hge
    · rw [List.getElem?_append_left hlt] at hq
      exact h.thread j q hq
    · have hnot : (w.start p).holds j = false :=
        decide_eq_false fun hj => absurd (h.owner j hj) (by omega)
      rw [List.getElem?_append_right hge] at hq
      cases List.mem_singleton.mp (List.mem_of_getElem? hq)
      rw [hnot]
      exact ⟨Discipline.top, trivial, D.stable_top false, hp⟩

/-- A shared state without threads. -/
theorem safe_idle {shared : γ} (h : D.inv shared) (out : List ο) :
    Safe D ⟨shared, none, [], out⟩ :=
  ⟨fun _ => h, (fun i hi => by cases hi), (fun i p hp => by simp at hp)⟩

/-- What thread `i` is about to hand out. -/
def giving (w : Workers γ ο) (i : Nat) : Option ο :=
  match w.threads[i]? with
  | some (.emit o _) => some o
  | _ => none

theorem Safe.good (h : w.Safe D) {o : ο} (ho : w.giving i = some o) : D.good w.shared o := by
  unfold giving at ho
  split at ho
  next o' next hthread =>
    cases ho
    obtain ⟨P, hP, -, hgood, -⟩ := h.thread i _ hthread
    exact hgood _ hP
  next => cases ho

/-! ## One thread alone -/

/-- Thread `i` runs to its end and leaves the shared state `s`. -/
def Finishes (w : Workers γ ο) (i : Nat) (s : γ) : Prop :=
  ∃ out, Run Workers.step (fun _ j => j = i) w ⟨s, none, w.threads.set i (.done ()), out⟩

theorem Finishes.of_step {s : γ} {p : Prog γ ο Unit} (hstep : w.step i = some w')
    (hthreads : w'.threads = w.threads.set i p) (h : w'.Finishes i s) : w.Finishes i s := by
  obtain ⟨out, r⟩ := h
  rw [hthreads, List.set_set] at r
  have hone : Run Workers.step (fun _ j => j = i) w w' := .single rfl hstep
  exact ⟨out, hone.trans r⟩

/-- **A thread that nobody disturbs** comes to its end, with the lock given back,
and leaves the shared state that `exec` computes. -/
theorem run_alone (p : Prog γ ο Unit) {held : Bool} {P : γ → Prop} (hsafe : p.Safe D held P Ended)
    (hP : P w.shared) (hthread : w.threads[i]? = some p)
    (howner : w.owner = if held then some i else none) (hinv : held = false → D.inv w.shared) :
    w.Finishes i (p.exec w.shared).1 := by
  have hset (q : Prog γ ο Unit) : (w.threads.set i q)[i]? = some q :=
    List.getElem?_set_self (List.getElem?_eq_some_iff.mp hthread).1
  -- induction on the program: each constructor is one step, and the lock is never contended
  induction p generalizing w held P with
  | done a =>
      change held = false at hsafe
      rw [hsafe] at howner
      refine ⟨w.out, ?_⟩
      have hsame : w.threads.set i (.done ()) = w.threads := by
        rw [← (List.getElem?_eq_some_iff.mp hthread).2, List.set_getElem_self]
      change Run Workers.step _ w ⟨w.shared, none, w.threads.set i (.done ()), w.out⟩
      rw [hsame, show none = w.owner from howner.symm]
      exact .refl w
  | lock next ih =>
      obtain ⟨rfl, hnext⟩ := hsafe
      have hstep : w.step i =
          some { w with owner := some i, threads := w.threads.set i next } := by
        rw [step, hthread]
        exact if_pos howner
      refine Finishes.of_step hstep rfl
        (ih hnext ⟨hP, hinv rfl⟩ (hset next) rfl (fun h => by cases h) fun q => ?_)
      rw [List.set_set, hset]
  | unlock next ih =>
      obtain ⟨rfl, hfree, Q, hQ, -, hnext⟩ := hsafe
      have hstep : w.step i = some { w with owner := none, threads := w.threads.set i next } := by
        rw [step, hthread]
      refine Finishes.of_step hstep rfl (ih hnext (hQ _ hP) (hset next) rfl (fun _ => hfree _ hP)
        fun q => ?_)
      rw [List.set_set, hset]
  | act f next ih =>
      obtain ⟨hf, Q, hQ, -, hnext⟩ := hsafe _ hP
      have hstep : w.step i =
          some { w with shared := f w.shared, threads := w.threads.set i (next w.shared) } := by
        rw [step, hthread]
      refine Finishes.of_step hstep rfl (ih w.shared hnext hQ (hset _) howner (fun hheld => ?_)
        fun q => ?_)
      · rw [hheld] at hf
        exact D.inv_free _ _ (hinv hheld) hf
      · rw [List.set_set, hset]
  | emit o next ih =>
      obtain ⟨-, hnext⟩ := hsafe
      have hstep : w.step i =
          some { w with threads := w.threads.set i next, out := w.out ++ [o] } := by
        rw [step, hthread]
      refine Finishes.of_step hstep rfl (ih hnext hP (hset next) howner hinv fun q => ?_)
      rw [List.set_set, hset]

end Workers

end KvRaft
