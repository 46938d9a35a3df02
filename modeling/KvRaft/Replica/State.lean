import Mathlib.Data.List.Infix
import Mathlib.Logic.Function.Basic
import KvRaft.Quorum

/-!
# KvRaft.Replica.State

The replicated-log protocol with term-numbered leaders, on its own: nodes of
any type `ι`, log entries of any type `ε` that carry a term, no messages and
no clocks.  Every log is the full log since the first entry; what a node has
compacted away does not show here.

A state keeps, next to what the nodes hold now, the history the safety
argument speaks of: who voted for whom and with which log, who was elected in
each term and with which log, the log of each term's leader as far as it has
grown (`hist`), what each node has acknowledged in each term and how far each
leader has committed.

The protocol's moves are total functions on states.  What each move requires
is the hypothesis of the lemma that it keeps an invariant
(`KvRaft.Replica.Election`, `KvRaft.Replica.Matching`,
`KvRaft.Replica.Completeness`).
-/

namespace KvRaft.Replica

/-- Log entries carry the term of the leader that created them. -/
class HasTerm (ε : Type) where
  term : ε → Nat

/-- Nodes, their logs, and the history of votes, leaders and commits. -/
structure State (ι ε : Type) where
  /-- the node's current term -/
  term : ι → Nat
  /-- the node's log -/
  log : ι → List ε
  /-- how much of the node's log is known to come from one leader; the rest is
  what a snapshot left behind it -/
  base : ι → Nat
  /-- whom the node voted for in a term -/
  vote : ι → Nat → Option ι
  /-- the log the node held when it cast its vote in a term -/
  ballot : ι → Nat → List ε
  /-- the log the node held when it stood for election in a term -/
  stood : ι → Nat → List ε
  /-- the votes a candidate has counted in a term -/
  tally : ι → Nat → List ι
  /-- who was elected in a term -/
  leader : Nat → Option ι
  /-- the log the leader of a term was elected with -/
  elected : Nat → List ε
  /-- the log of a term's leader, as far as it has grown -/
  hist : Nat → List ε
  /-- the highest index the node has acknowledged in a term -/
  acked : ι → Nat → Nat
  /-- the highest index the leader of a term has committed -/
  commit : Nat → Nat

/-- The protocol before anything happened. -/
def State.init : State ι ε where
  term := fun _ => 0
  log := fun _ => []
  base := fun _ => 0
  vote := fun _ _ => none
  ballot := fun _ _ => []
  stood := fun _ _ => []
  tally := fun _ _ => []
  leader := fun _ => none
  elected := fun _ => []
  hist := fun _ => []
  acked := fun _ _ => 0
  commit := fun _ => 0

/-! ## Terms along a log -/

section Terms

variable [HasTerm ε]

/-- Term of the entry at the 1-based index `i`; `0` outside the log. -/
def termAt (l : List ε) : Nat → Nat
  | 0 => 0
  | i + 1 => match l[i]? with
      | some e => HasTerm.term e
      | none => 0

/-- Term of the last entry; `0` for the empty log. -/
def lastTerm (l : List ε) : Nat := termAt l l.length

/-- The election restriction: a candidate with log `a` may have the vote of a
node with log `b`. -/
def UpToDate (a b : List ε) : Prop :=
  lastTerm b < lastTerm a ∨ (lastTerm a = lastTerm b ∧ b.length ≤ a.length)

@[simp] theorem termAt_zero (l : List ε) : termAt l 0 = 0 := rfl

theorem termAt_succ_of_lt {l : List ε} {i : Nat} (h : i < l.length) :
    termAt l (i + 1) = HasTerm.term l[i] := by
  simp [termAt, List.getElem?_eq_getElem h]

theorem termAt_of_length_lt {l : List ε} {i : Nat} (h : l.length < i) : termAt l i = 0 := by
  cases i with
  | zero => rfl
  | succ i => simp [termAt, List.getElem?_eq_none (by omega : l.length ≤ i)]

/-- A log and the longer log it is a prefix of have the same terms. -/
theorem termAt_eq_of_isPrefix {l l' : List ε} {i : Nat} (h : l <+: l') (hi : i ≤ l.length) :
    termAt l' i = termAt l i := by
  cases i with
  | zero => rfl
  | succ i =>
      obtain ⟨x, rfl⟩ := h
      simp only [termAt]
      rw [List.getElem?_append_left (by omega)]

theorem termAt_take {l : List ε} {i m : Nat} (h : i ≤ m) (hm : m ≤ l.length) :
    termAt (l.take m) i = termAt l i :=
  (termAt_eq_of_isPrefix ⟨_, List.take_append_drop m l⟩ (by rw [List.length_take]; omega)).symm

theorem lastTerm_append_singleton (l : List ε) (e : ε) :
    lastTerm (l ++ [e]) = HasTerm.term e := by
  rw [lastTerm, List.length_append, List.length_singleton,
    termAt_succ_of_lt (by simp)]
  simp

/-- What is put under the end of a log does not change its last term. -/
theorem lastTerm_append_drop {p l : List ε} (h : p.length < l.length) :
    lastTerm (p ++ l.drop p.length) = lastTerm l := by
  obtain ⟨i, hi⟩ : ∃ i, l.length = i + 1 := ⟨l.length - 1, by omega⟩
  have hlen : (p ++ l.drop p.length).length = i + 1 := by
    rw [List.length_append, List.length_drop]; omega
  rw [lastTerm, lastTerm, hlen, hi]
  simp only [termAt]
  rw [List.getElem?_append_right (by omega), List.getElem?_drop]
  congr 2
  omega

theorem UpToDate.refl (l : List ε) : UpToDate l l := .inr ⟨rfl, Nat.le_refl _⟩

end Terms

/-! ## Prefixes of one log -/

/-- Of two prefixes of one log, the one that is not thrown away is the longer. -/
theorem isPrefix_take_of_keeps {h l x : List ε} {m : Nat} (hm : m ≤ h.length)
    (hkeep : h.take m <+: l → l.length ≤ m) (hx : x <+: h) (hxl : x <+: l) : x <+: h.take m := by
  have hlen : (h.take m).length = m := by rw [List.length_take]; omega
  by_cases hle : x.length ≤ m
  · exact List.prefix_of_prefix_length_le hx ⟨_, List.take_append_drop _ _⟩ (by omega)
  · have hmx : h.take m <+: x :=
      List.prefix_of_prefix_length_le ⟨_, List.take_append_drop _ _⟩ hx (by omega)
    have hll := hkeep (hmx.trans hxl)
    have := hxl.length_le
    omega

/-! ## Moves -/

section Moves

variable [DecidableEq ι]

/-- Update a two-argument table at one place. -/
def set₂ (f : ι → Nat → β) (n : ι) (t : Nat) (x : β) : ι → Nat → β :=
  Function.update f n (Function.update (f n) t x)

@[simp] theorem set₂_self (f : ι → Nat → β) (n : ι) (t : Nat) (x : β) : set₂ f n t x n t = x := by
  simp [set₂]

theorem set₂_of_ne {f : ι → Nat → β} {n m : ι} {t u : Nat} {x : β} (h : m ≠ n ∨ u ≠ t) :
    set₂ f n t x m u = f m u := by
  by_cases hm : m = n
  · subst hm
    rw [set₂, Function.update_self, Function.update_of_ne (h.resolve_left (by simp))]
  · rw [set₂, Function.update_of_ne hm]

/-- A table entry after an update is the new value at its place or the old one. -/
theorem set₂_cases (f : ι → Nat → β) (n : ι) (t : Nat) (x : β) (m : ι) (u : Nat) :
    (m = n ∧ u = t ∧ set₂ f n t x m u = x) ∨ ((m ≠ n ∨ u ≠ t) ∧ set₂ f n t x m u = f m u) := by
  by_cases h : m = n ∧ u = t
  · obtain ⟨rfl, rfl⟩ := h
    exact .inl ⟨rfl, rfl, set₂_self f m u x⟩
  · have h' : m ≠ n ∨ u ≠ t := by tauto
    exact .inr ⟨h', set₂_of_ne h'⟩

namespace State

/-- `n` learns of term `t`. -/
def raise (s : State ι ε) (n : ι) (t : Nat) : State ι ε :=
  { s with term := Function.update s.term n (max (s.term n) t) }

/-- `c` stands for election in the next term and votes for itself. -/
def stand (s : State ι ε) (c : ι) : State ι ε :=
  { s with
    term := Function.update s.term c (s.term c + 1)
    vote := set₂ s.vote c (s.term c + 1) (some c)
    ballot := set₂ s.ballot c (s.term c + 1) (s.log c)
    stood := set₂ s.stood c (s.term c + 1) (s.log c) }

/-- `v` votes for `c` in its current term, unless it has voted already. -/
def castVote (s : State ι ε) (v c : ι) : State ι ε :=
  if s.vote v (s.term v) = none then
    { s with
      vote := set₂ s.vote v (s.term v) (some c)
      ballot := set₂ s.ballot v (s.term v) (s.log v) }
  else s

/-- Candidate `c` counts the vote of `v` in its current term. -/
def count (s : State ι ε) (c v : ι) : State ι ε :=
  { s with tally := set₂ s.tally c (s.term c) (v :: s.tally c (s.term c)) }

/-- `c` becomes the leader of its current term. -/
def elect (s : State ι ε) (c : ι) : State ι ε :=
  { s with
    leader := Function.update s.leader (s.term c) (some c)
    elected := Function.update s.elected (s.term c) (s.log c)
    hist := Function.update s.hist (s.term c) (s.log c)
    acked := set₂ s.acked c (s.term c) (s.log c).length }

theorem elect_hist_self (s : State ι ε) (c : ι) : (s.elect c).hist (s.term c) = s.log c :=
  Function.update_self ..

section

variable {s : State ι ε} {c : ι} {t : Nat}

theorem elect_hist_of_ne (ht : t ≠ s.term c) : (s.elect c).hist t = s.hist t :=
  Function.update_of_ne ht ..

theorem elect_elected_of_ne (ht : t ≠ s.term c) : (s.elect c).elected t = s.elected t :=
  Function.update_of_ne ht ..

theorem elect_leader_of_ne (ht : t ≠ s.term c) : (s.elect c).leader t = s.leader t :=
  Function.update_of_ne ht ..

theorem elect_acked_of_ne (ht : t ≠ s.term c) (n : ι) : (s.elect c).acked n t = s.acked n t :=
  set₂_of_ne (.inr ht)

end

/-- Leader `c` appends an entry to its log. -/
def append (s : State ι ε) (c : ι) (e : ε) : State ι ε :=
  { s with
    log := Function.update s.log c (s.log c ++ [e])
    base := Function.update s.base c ((s.log c).length + 1)
    hist := Function.update s.hist (s.term c) (s.hist (s.term c) ++ [e])
    acked := set₂ s.acked c (s.term c)
      (max (s.acked c (s.term c)) ((s.hist (s.term c)).length + 1)) }

theorem append_hist_self (s : State ι ε) (c : ι) (e : ε) :
    (s.append c e).hist (s.term c) = s.hist (s.term c) ++ [e] := Function.update_self ..

theorem append_hist_of_ne {s : State ι ε} {c : ι} {t : Nat} (ht : t ≠ s.term c) (e : ε) :
    (s.append c e).hist t = s.hist t := Function.update_of_ne ht ..

/-- `n` acknowledges to the leader of its term everything up to index `m`. -/
def acknowledge (s : State ι ε) (n : ι) (m : Nat) : State ι ε :=
  { s with acked := set₂ s.acked n (s.term n) (max (s.acked n (s.term n)) m) }

/-- The leader of term `t` commits everything up to index `m`. -/
def commitTo (s : State ι ε) (t m : Nat) : State ι ε :=
  { s with commit := Function.update s.commit t (max (s.commit t) m) }

/-- `n` replaces its log by `p`. -/
def install (s : State ι ε) (n : ι) (p : List ε) : State ι ε :=
  { s with
    log := Function.update s.log n p
    base := Function.update s.base n p.length }

/-- `n` takes over the first `m` entries of its term's leader, dropping what
it held, and acknowledges them. -/
def replicate (s : State ι ε) (n : ι) (m : Nat) : State ι ε :=
  (s.install n ((s.hist (s.term n)).take m)).acknowledge n m

/-- `n` puts `p` under what it holds above the end of `p`, whether or not the
two fit together. -/
def graft (s : State ι ε) (n : ι) (p : List ε) : State ι ε :=
  { s with
    log := Function.update s.log n (p ++ (s.log n).drop p.length)
    base := Function.update s.base n p.length }

variable {s : State ι ε} {v c w x : ι} {t : Nat}

/-- A vote changes nothing but votes and the logs they were cast with. -/
theorem castVote_eq (s : State ι ε) (v c : ι) :
    ∃ vote ballot, s.castVote v c = { s with vote, ballot } := by
  unfold castVote
  split
  · exact ⟨_, _, rfl⟩
  · exact ⟨s.vote, s.ballot, rfl⟩

theorem castVote_vote_self
    (h : s.vote v (s.term v) = none ∨ s.vote v (s.term v) = some c) :
    (s.castVote v c).vote v (s.term v) = some c := by
  unfold castVote
  split
  · exact set₂_self ..
  · next hne => exact h.resolve_left hne

/-- The only new vote is that of `v` for `c` in its term. -/
theorem castVote_vote_cases (h : (s.castVote v c).vote w t = some x) :
    s.vote w t = some x ∨ (t = s.term v ∧ x = c) := by
  unfold castVote at h
  split at h
  · rcases set₂_cases s.vote v (s.term v) (some c) w t with ⟨-, ht, heq⟩ | ⟨-, heq⟩
    · exact .inr ⟨ht, Option.some.inj (h.symm.trans heq)⟩
    · exact .inl (heq ▸ h)
  · exact .inl h

end State

end Moves

/-! ## Growth -/

/-- What never changes again once it is there: terms only rise, votes,
leaders and the logs they were elected with stay, and leader logs,
acknowledgements and commits only grow. -/
structure Extends (s s' : State ι ε) : Prop where
  term : ∀ n, s.term n ≤ s'.term n
  vote : ∀ v t c, s.vote v t = some c → s'.vote v t = some c
  stood : ∀ c t, t ≤ s.term c → s'.stood c t = s.stood c t
  leader : ∀ t c, s.leader t = some c → s'.leader t = some c
  elected : ∀ t c, s.leader t = some c → s'.elected t = s.elected t
  hist : ∀ t, s.hist t <+: s'.hist t
  acked : ∀ n t, s.acked n t ≤ s'.acked n t
  commit : ∀ t, s.commit t ≤ s'.commit t

namespace Extends

theorem refl (s : State ι ε) : Extends s s where
  term := fun _ => Nat.le_refl _
  vote := fun _ _ _ h => h
  stood := fun _ _ _ => rfl
  leader := fun _ _ h => h
  elected := fun _ _ _ => rfl
  hist := fun _ => List.prefix_refl _
  acked := fun _ _ => Nat.le_refl _
  commit := fun _ => Nat.le_refl _

theorem trans {s s' s'' : State ι ε} (h : Extends s s') (h' : Extends s' s'') :
    Extends s s'' where
  term := fun n => Nat.le_trans (h.term n) (h'.term n)
  vote := fun v t c hv => h'.vote v t c (h.vote v t c hv)
  stood := fun c t ht => by
    rw [h'.stood c t (Nat.le_trans ht (h.term c)), h.stood c t ht]
  leader := fun t c hl => h'.leader t c (h.leader t c hl)
  elected := fun t c hl => by
    rw [h'.elected t c (h.leader t c hl), h.elected t c hl]
  hist := fun t => (h.hist t).trans (h'.hist t)
  acked := fun n t => Nat.le_trans (h.acked n t) (h'.acked n t)
  commit := fun t => Nat.le_trans (h.commit t) (h'.commit t)

end Extends

/-- What a node holds itself is the same in both states. -/
structure SameNode (m : ι) (s s' : State ι ε) : Prop where
  term : s'.term m = s.term m
  log : s'.log m = s.log m
  base : s'.base m = s.base m
  vote : ∀ t, s'.vote m t = s.vote m t
  stood : ∀ t, s'.stood m t = s.stood m t
  tally : ∀ t, s'.tally m t = s.tally m t
  leader : ∀ t, s'.leader t = some m → s.leader t = some m
  commit : ∀ t, s'.leader t = some m → s'.commit t = s.commit t

namespace SameNode

theorem refl (m : ι) (s : State ι ε) : SameNode m s s :=
  ⟨rfl, rfl, rfl, fun _ => rfl, fun _ => rfl, fun _ => rfl, fun _ h => h, fun _ _ => rfl⟩

theorem trans {m : ι} {s s' s'' : State ι ε} (h : SameNode m s s') (h' : SameNode m s' s'') :
    SameNode m s s'' where
  term := h'.term.trans h.term
  log := h'.log.trans h.log
  base := h'.base.trans h.base
  vote := fun t => (h'.vote t).trans (h.vote t)
  stood := fun t => (h'.stood t).trans (h.stood t)
  tally := fun t => (h'.tally t).trans (h.tally t)
  leader := fun t hl => h.leader t (h'.leader t hl)
  commit := fun t hl => (h'.commit t hl).trans (h.commit t (h'.leader t hl))

theorem commitTo {m n : ι} (h : m ≠ n) {s : State ι ε} {t : Nat} (hl : s.leader t = some n)
    (k : Nat) : SameNode m s (s.commitTo t k) where
  term := rfl
  log := rfl
  base := rfl
  vote := fun _ => rfl
  stood := fun _ => rfl
  tally := fun _ => rfl
  leader := fun _ h => h
  commit := fun u hu => by
    have hut : u ≠ t := fun hut => by
      subst hut
      exact h (Option.some.inj (hu.symm.trans hl))
    simp only [State.commitTo, Function.update_of_ne hut]

end SameNode

/-! ## A move of one node leaves the others as they are -/

section Frame

variable [DecidableEq ι] {s : State ι ε} {m n : ι}

theorem SameNode.raise (h : m ≠ n) (t : Nat) : SameNode m s (s.raise n t) where
  term := Function.update_of_ne h _ _
  log := rfl
  base := rfl
  vote := fun _ => rfl
  stood := fun _ => rfl
  tally := fun _ => rfl
  leader := fun _ h => h
  commit := fun _ _ => rfl

theorem SameNode.stand (h : m ≠ n) : SameNode m s (s.stand n) where
  term := Function.update_of_ne h _ _
  log := rfl
  base := rfl
  vote := fun _ => set₂_of_ne (.inl h)
  stood := fun _ => set₂_of_ne (.inl h)
  tally := fun _ => rfl
  leader := fun _ h => h
  commit := fun _ _ => rfl

theorem SameNode.castVote (h : m ≠ n) (c : ι) : SameNode m s (s.castVote n c) := by
  unfold State.castVote
  split
  · exact ⟨rfl, rfl, rfl, fun _ => set₂_of_ne (.inl h), fun _ => rfl, fun _ => rfl, fun _ h => h,
      fun _ _ => rfl⟩
  · exact .refl m s

theorem SameNode.count (h : m ≠ n) (v : ι) : SameNode m s (s.count n v) where
  term := rfl
  log := rfl
  base := rfl
  vote := fun _ => rfl
  stood := fun _ => rfl
  tally := fun _ => set₂_of_ne (.inl h)
  leader := fun _ h => h
  commit := fun _ _ => rfl

theorem SameNode.elect (h : m ≠ n) : SameNode m s (s.elect n) where
  term := rfl
  log := rfl
  base := rfl
  vote := fun _ => rfl
  stood := fun _ => rfl
  tally := fun _ => rfl
  leader := fun t hl => by
    by_cases ht : t = s.term n
    · subst ht
      simp only [State.elect, Function.update_self, Option.some.injEq] at hl
      exact absurd hl.symm h
    · simpa only [State.elect, Function.update_of_ne ht] using hl
  commit := fun _ _ => rfl

theorem SameNode.append (h : m ≠ n) (e : ε) : SameNode m s (s.append n e) :=
  ⟨rfl, Function.update_of_ne h _ _, Function.update_of_ne h _ _, fun _ => rfl, fun _ => rfl,
    fun _ => rfl, fun _ h => h, fun _ _ => rfl⟩

theorem SameNode.acknowledge (m n : ι) (k : Nat) : SameNode m s (s.acknowledge n k) :=
  ⟨rfl, rfl, rfl, fun _ => rfl, fun _ => rfl, fun _ => rfl, fun _ h => h, fun _ _ => rfl⟩

theorem SameNode.install (h : m ≠ n) (p : List ε) : SameNode m s (s.install n p) :=
  ⟨rfl, Function.update_of_ne h _ _, Function.update_of_ne h _ _, fun _ => rfl, fun _ => rfl,
    fun _ => rfl, fun _ h => h, fun _ _ => rfl⟩

theorem SameNode.replicate (h : m ≠ n) (k : Nat) : SameNode m s (s.replicate n k) :=
  (SameNode.install h _).trans (.acknowledge m n k)

theorem SameNode.graft (h : m ≠ n) (p : List ε) : SameNode m s (s.graft n p) :=
  ⟨rfl, Function.update_of_ne h _ _, Function.update_of_ne h _ _, fun _ => rfl, fun _ => rfl,
    fun _ => rfl, fun _ h => h, fun _ _ => rfl⟩

end Frame

end KvRaft.Replica
