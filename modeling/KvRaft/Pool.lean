import Mathlib.Data.List.Basic

/-!
# KvRaft.Pool

Threads over a shared state.  A thread is the list of the stretches of code it
has yet to run; running the first one changes the shared state at once, may
put further stretches in front and may emit outputs.  Any thread may run next.

* `Alone` — one thread runs its code to the end and no other thread runs,
  which composes (`Alone.append`);
* `Sole` — of all threads at most one holds work of some kind;
* `load` — the work of all threads together (`load_set`);
* `Every` — all stretches that are yet to run have some property.
-/

namespace KvRaft

/-- What a stretch of code does: the shared state after it, the stretches the
thread runs next, and what it emits. -/
structure Outcome (γ κ ο : Type) where
  shared : γ
  next : List κ
  out : List ο

structure Pool (γ κ ο : Type) where
  shared : γ
  threads : List (List κ)
  out : List ο

namespace Pool

variable {γ κ ο : Type} {run : γ → κ → Outcome γ κ ο}

/-- Thread `i` runs the stretch `k` and goes on with `ks` after it. -/
def ran (run : γ → κ → Outcome γ κ ο) (p : Pool γ κ ο) (i : Nat) (k : κ) (ks : List κ) :
    Pool γ κ ο where
  shared := (run p.shared k).shared
  threads := p.threads.set i ((run p.shared k).next ++ ks)
  out := p.out ++ (run p.shared k).out

/-- A thread that starts with `ks` runs to its end, from `s` to `s'`, while no
other thread runs. -/
inductive Alone (run : γ → κ → Outcome γ κ ο) : γ → List κ → γ → List ο → Prop
  | nil (s : γ) : Alone run s [] s []
  | cons {s s' : γ} {k : κ} {ks : List κ} {out : List ο}
      (h : Alone run (run s k).shared ((run s k).next ++ ks) s' out) :
      Alone run s (k :: ks) s' ((run s k).out ++ out)

namespace Alone

variable {s s' s'' : γ} {k : κ} {ks ks' : List κ} {out out' : List ο}

theorem append (h : Alone run s ks s' out) (h' : Alone run s' ks' s'' out') :
    Alone run s (ks ++ ks') s'' (out ++ out') := by
  induction h with
  | nil s => exact h'
  | cons _ ih =>
      have := ih h'
      rw [List.append_assoc] at this
      rw [List.append_assoc]
      exact .cons this

/-- A stretch that emits nothing. -/
theorem silent {next : List κ} (hk : run s k = ⟨s', next, []⟩)
    (h : Alone run s' (next ++ ks) s'' out) : Alone run s (k :: ks) s'' out := by
  have hcons : Alone run s (k :: ks) s'' ((run s k).out ++ out) := .cons (by rwa [hk])
  rwa [hk] at hcons

/-- A stretch that ends the thread. -/
theorem last (hk : run s k = ⟨s', [], out⟩) : Alone run s [k] s' out := by
  have hnil : Alone run (run s k).shared ((run s k).next ++ []) s' [] := by
    rw [hk]
    exact .nil s'
  have hcons := cons hnil
  rwa [hk, List.append_nil] at hcons

end Alone

/-! ## Work that one thread holds -/

variable {β : Type} {work : κ → List β} {threads : List (List κ)} {owner i : Nat} {rest : List β}

/-- The work that thread `i` holds. -/
def held (work : κ → List β) (threads : List (List κ)) (i : Nat) : List β :=
  (threads[i]?.getD []).flatMap work

/-- `rest` is all the work there is, and it is held by `owner`. -/
structure Sole (work : κ → List β) (threads : List (List κ)) (owner : Nat) (rest : List β) :
    Prop where
  own : held work threads owner = rest
  others : ∀ i, i ≠ owner → held work threads i = []

theorem held_set {ks : List κ} (hi : i < threads.length) (j : Nat) :
    held work (threads.set i ks) j = if i = j then ks.flatMap work else held work threads j := by
  unfold held
  rw [List.getElem?_set]
  split
  · simp
  · rfl

/-- Nobody holds work. -/
theorem held_of_flatMap_eq_nil (h : threads.flatMap (fun ks => ks.flatMap work) = []) (i : Nat) :
    held work threads i = [] := by
  unfold held
  cases hi : threads[i]? with
  | none => rfl
  | some ks => exact List.flatMap_eq_nil_iff.mp h ks (List.mem_of_getElem? hi)

namespace Sole

/-- A thread goes on and its work stays the same. -/
theorem set_same {ks : List κ} (h : Sole work threads owner rest) (hi : i < threads.length)
    (hks : ks.flatMap work = held work threads i) : Sole work (threads.set i ks) owner rest := by
  have hsame : ∀ j, held work (threads.set i ks) j = held work threads j := fun j => by
    rw [held_set hi]
    split
    · next hij => rw [hks, hij]
    · rfl
  exact ⟨(hsame owner).trans h.own, fun j hj => (hsame j).trans (h.others j hj)⟩

/-- A thread takes up work while nobody holds any. -/
theorem set_idle (h : ∀ j, held work threads j = []) (hi : i < threads.length) (ks : List κ) :
    Sole work (threads.set i ks) i (ks.flatMap work) := by
  refine ⟨by rw [held_set hi, if_pos rfl], fun j hj => ?_⟩
  rw [held_set hi, if_neg (Ne.symm hj), h j]

/-- A thread that holds work holds all of it. -/
theorem eq_owner (h : Sole work threads owner rest) (hi : held work threads i ≠ []) :
    i = owner ∧ held work threads i = rest := by
  by_cases heq : i = owner
  · exact ⟨heq, heq ▸ h.own⟩
  · exact absurd (h.others i heq) hi

/-- The owner goes on with less work. -/
theorem set_owner (h : Sole work threads owner rest) (hi : owner < threads.length) (ks : List κ) :
    Sole work (threads.set owner ks) owner (ks.flatMap work) := by
  refine ⟨by rw [held_set hi, if_pos rfl], fun j hj => ?_⟩
  rw [held_set hi, if_neg (Ne.symm hj), h.others j hj]

/-- A new thread without work. -/
theorem append {ks : List κ} (h : Sole work threads owner rest) (hks : ks.flatMap work = []) :
    Sole work (threads ++ [ks]) owner rest := by
  have hsame : ∀ j, held work (threads ++ [ks]) j = held work threads j := fun j => by
    unfold held
    rcases Nat.lt_trichotomy j threads.length with hlt | rfl | hgt
    · rw [List.getElem?_append_left hlt]
    · simp [hks]
    · rw [List.getElem?_eq_none (by simp; omega), List.getElem?_eq_none (by omega)]
  exact ⟨(hsame owner).trans h.own, fun j hj => (hsame j).trans (h.others j hj)⟩

end Sole

/-! ## All work there is -/

/-- The work of all threads. -/
def load (work : κ → List β) (threads : List (List κ)) : List β :=
  threads.flatMap fun ks => ks.flatMap work

/-- What thread `i` does to the work: it gives up that of its next stretch and
takes up that of the stretches it goes on with. -/
theorem load_set (work : κ → List β) {k : κ} {ks : List κ} (hi : threads[i]? = some (k :: ks)) :
    ∃ others, (load work threads).Perm (work k ++ others) ∧
      ∀ next : List κ, (load work (threads.set i (next ++ ks))).Perm
        (next.flatMap work ++ others) := by
  obtain ⟨hlt, hat⟩ := List.getElem?_eq_some_iff.mp hi
  -- the work of the other threads is what lies before and behind this one
  have hsplit : threads = threads.take i ++ (k :: ks) :: threads.drop (i + 1) := by
    rw [← hat, ← List.drop_eq_getElem_cons hlt, List.take_append_drop]
  have hset : ∀ ks', threads.set i ks' = threads.take i ++ ks' :: threads.drop (i + 1) :=
    fun ks' => List.set_eq_take_append_cons_drop.trans (if_pos hlt)
  have hload : ∀ front : List β, ∀ ks' : List κ, ks'.flatMap work = front ++ ks.flatMap work →
      (load work (threads.take i ++ ks' :: threads.drop (i + 1))).Perm
        (front ++ (load work (threads.take i) ++
          (ks.flatMap work ++ load work (threads.drop (i + 1))))) := fun front ks' hks' => by
    rw [load, List.flatMap_append, List.flatMap_cons, hks', List.append_assoc]
    exact List.perm_append_comm_assoc _ _ _
  refine ⟨load work (threads.take i) ++ (ks.flatMap work ++ load work (threads.drop (i + 1))), ?_,
    fun next => ?_⟩
  · conv_lhs => rw [hsplit]
    exact hload (work k) (k :: ks) List.flatMap_cons
  · rw [hset]
    exact hload (next.flatMap work) (next ++ ks) List.flatMap_append

/-- A new thread without work. -/
theorem load_append {k : κ} (hk : work k = []) :
    load work (threads ++ [[k]]) = load work threads := by
  simp [load, hk]

/-! ## What is yet to run -/

/-- Every stretch that some thread has yet to run satisfies `P`. -/
def Every (P : κ → Prop) (threads : List (List κ)) : Prop := ∀ ks ∈ threads, ∀ k ∈ ks, P k

instance (P : κ → Prop) [DecidablePred P] (threads : List (List κ)) : Decidable (Every P threads) :=
  inferInstanceAs (Decidable (∀ ks ∈ threads, ∀ k ∈ ks, P k))

namespace Every

variable {P Q : κ → Prop} {k : κ} {ks : List κ}

theorem nil : Every P [] := nofun

theorem mono (h : Every P threads) (hw : ∀ k, P k → Q k) : Every Q threads :=
  fun ks hks k hk => hw k (h ks hks k hk)

theorem head (h : Every P threads) (hi : threads[i]? = some (k :: ks)) : P k :=
  h _ (List.mem_of_getElem? hi) k List.mem_cons_self

/-- Thread `i` goes on with `next` in front. -/
theorem set (h : Every P threads) (hi : threads[i]? = some (k :: ks)) {next : List κ}
    (hnext : ∀ k' ∈ next, P k') : Every P (threads.set i (next ++ ks)) := by
  intro ks' hks' k' hk'
  rcases List.mem_or_eq_of_mem_set hks' with hold | rfl
  · exact h ks' hold k' hk'
  · rcases List.mem_append.mp hk' with hk' | hk'
    · exact hnext k' hk'
    · exact h _ (List.mem_of_getElem? hi) k' (List.mem_cons_of_mem k hk')

/-- A new thread. -/
theorem append (h : Every P threads) (hk : P k) : Every P (threads ++ [[k]]) := by
  intro ks' hks' k' hk'
  rcases List.mem_append.mp hks' with hks' | hks'
  · exact h ks' hks' k' hk'
  · rw [List.mem_singleton.mp hks', List.mem_singleton] at hk'
    exact hk' ▸ hk

end Every

end Pool

end KvRaft
