import KvRaft.Run
import KvRaft.ThreadEffect
import Mathlib.Data.List.Chain

/-!
# KvRaft.TermWindows

What the threads of a node do in the term they have checked.  A vote callback
that sees a majority lets go of the lock before `becomeLeader` takes it, and a
handler that finds its request in time does so before it acts on it; neither
looks at the term again.

* `leads_in_won_term` — a node takes office in the term it has won exactly as
  long as it does not stand for election while a call of `becomeLeader` is on
  its way (`Threads.StandsAlone`); `leads_in_other_term` is such a run;
* `acts_in_request_term` — a request acts in its own term, if the term is not
  raised above that of a request that was let through (`Threads.HoldsTerm`);
  `stale_request_acts` is a run where it is.
-/

namespace KvRaft

open Pool

variable {σ : Type}

/-! ## Taking office -/

/-- The term that a call of `becomeLeader` has won. -/
def Stretch.won? : Stretch → Option Nat
  | .becomeLeader won => some won
  | _ => none

theorem Stretch.won?_of_isPlain {k : Stretch} (h : k.isPlain = true) : k.won? = none := by
  cases k with
  | becomeLeader => contradiction
  | _ => rfl

namespace Threads

/-- A call of `becomeLeader` that would make the node leader now, would do so in
the term it has won. -/
def WonTerm (s : Threads σ) : Prop :=
  Every (fun k => ∀ won ∈ k.won?, s.node.role = .candidate → s.node.log.currentTerm = won) s.threads

/-- The node stands for election only while no call of `becomeLeader` is on its way. -/
def StandsAlone (s : Threads σ) (a : Action) : Prop :=
  s.running a = some .becomeCandidate → Every (fun k => k.won? = none) s.threads

instance (s : Threads σ) (a : Action) : Decidable (s.StandsAlone a) :=
  inferInstanceAs (Decidable (_ = _ → Every _ _))

end Threads

variable [StateMachine σ]

namespace Stretch

/-- A call of `becomeLeader` starts in the term it has won. -/
theorem next_won {n : RaftNode σ} {k k' : Stretch} {won : Nat} (h : k' ∈ (k.run n).next)
    (hwon : won ∈ k'.won?) : (k.run n).shared.log.currentTerm = won := by
  cases next_follows h with
  | lead hterm => exact hterm.trans (Option.some.inj hwon)
  | plain hplain =>
      rw [won?_of_isPlain hplain] at hwon
      contradiction
  | _ => contradiction

/-- A call that is on its way while another stretch runs. -/
theorem keeps_won {n : RaftNode σ} {k : Stretch} (hk : k ≠ .becomeCandidate) {won : Nat}
    (h : won ≤ n.log.currentTerm ∧ (n.role = .candidate → n.log.currentTerm = won)) :
    won ≤ (k.run n).shared.log.currentTerm ∧
      ((k.run n).shared.role = .candidate → (k.run n).shared.log.currentTerm = won) := by
  have hmoves := k.moves n
  generalize (k.run n).shared = n' at hmoves
  cases hmoves with
  | stand => exact absurd rfl hk
  | follow term leader =>
      exact ⟨h.1.trans (RaftNode.SameData.becomeFollower n term leader).term_le, nofun⟩
  | lead => exact ⟨h.1, nofun⟩
  | vote req | voteLater req =>
      rw [RaftNode.castVote_role, RaftNode.castVote_currentTerm]
      exact h
  | keep hrole hterm =>
      rw [hrole, hterm]
      exact h

end Stretch

namespace Threads

variable {s s' : Threads σ}

/-- The calls of `becomeLeader` that are on their way. -/
def Elections (s : Threads σ) : Prop :=
  Every (fun k => ∀ won ∈ k.won?, won ≤ s.node.log.currentTerm ∧
    (s.node.role = .candidate → s.node.log.currentTerm = won)) s.threads

omit [StateMachine σ] in
theorem Elections.wonTerm (h : s.Elections) : s.WonTerm :=
  h.mono fun _ hk won hwon => (hk won hwon).2

theorem Elections.step (h : s.Elections) {a : Action} (hok : s.StandsAlone a)
    (hstep : s.step a = some s') : s'.Elections := by
  obtain ⟨entry, -, rfl⟩ | ⟨i, k, ks, rfl, hi, rfl⟩ | ⟨-, rfl⟩ := step_cases hstep
  · refine Every.append h fun won hwon => ?_
    rw [Stretch.won?_of_isPlain entry.isPlain] at hwon
    contradiction
  · have hkeep : Every (fun k' => ∀ won ∈ k'.won?, won ≤ (k.run s.node).shared.log.currentTerm ∧
        ((k.run s.node).shared.role = .candidate →
          (k.run s.node).shared.log.currentTerm = won)) s.threads := by
      intro ks' hks' k' hk' won hwon
      refine Stretch.keeps_won (fun hcandidate => ?_) (h ks' hks' k' hk' won hwon)
      -- the node stands for election while `k'` is on its way
      have hnone := hok (hcandidate ▸ running_of_getElem? hi) ks' hks' k' hk'
      rw [hnone] at hwon
      contradiction
    refine hkeep.set hi fun k' hk' won hwon => ?_
    have hterm := Stretch.next_won hk' hwon
    exact ⟨Nat.le_of_eq hterm.symm, fun _ => hterm⟩
  · exact .nil

theorem Elections.of_run {id : NodeId} {threshold : Nat} {config : ClusterConfig}
    (hrun : Run Threads.step StandsAlone (.init id threshold config) s) : s.Elections :=
  hrun.invariant (P := Elections) .nil fun _ _ _ h hok hstep => h.step hok hstep

/-- A node that stands for election while a call of `becomeLeader` is on its way
would take office in a term that was not won. -/
theorem Elections.standsAlone (h : s.Elections) {a : Action} (hstep : s.step a = some s')
    (hwon : s'.WonTerm) : s.StandsAlone a := by
  obtain ⟨entry, rfl, rfl⟩ | ⟨i, k, ks, rfl, hi, rfl⟩ | ⟨rfl, rfl⟩ := step_cases hstep
  · nofun
  · intro hrunning ks' hks' k' hk'
    rw [running_of_getElem? hi] at hrunning
    cases hrunning
    by_contra hsome
    obtain ⟨won, hk'won⟩ := Option.ne_none_iff_exists'.mp hsome
    -- the call is still on its way after the step
    have hpending : ∃ ks'' ∈ (s.ran i .becomeCandidate ks).threads, k' ∈ ks'' := by
      obtain ⟨j, hj⟩ := List.mem_iff_getElem?.mp hks'
      by_cases hij : i = j
      · subst hij
        obtain rfl := Option.some.inj (hi.symm.trans hj)
        have hk'ks : k' ∈ ks := (List.mem_cons.mp hk').resolve_left fun heq => by
          rw [heq] at hk'won
          contradiction
        refine ⟨_, List.mem_set (List.getElem?_eq_some_iff.mp hi).1 _,
          List.mem_append_right _ hk'ks⟩
      · refine ⟨ks', List.mem_iff_getElem?.mpr ⟨j, ?_⟩, hk'⟩
        change (s.threads.set i _)[j]? = _
        rw [List.getElem?_set_ne hij, hj]
    obtain ⟨ks'', hks'', hk''⟩ := hpending
    -- the call was let through in a term up to this one, and a candidacy begins a later one
    have hle := (h ks' hks' k' hk' won hk'won).1
    obtain ⟨votes, hrun⟩ := Stretch.run_becomeCandidate s.node
    have hlater := hwon ks'' hks'' k' hk'' won hk'won
    change (Stretch.run s.node .becomeCandidate).shared.role = .candidate →
      (Stretch.run s.node .becomeCandidate).shared.log.currentTerm = won at hlater
    rw [hrun] at hlater
    have hterm : s.node.log.currentTerm + 1 = won := hlater rfl
    omega
  · nofun

end Threads

/-- **Leadership is taken in the term that was won**, in every run in which the
node stands for election only while no call of `becomeLeader` is on its way;
and from a state of such a run a step keeps it so exactly if it meets the
condition. -/
theorem leads_in_won_term {id : NodeId} {threshold : Nat} {config : ClusterConfig} {s : Threads σ}
    (hrun : Run Threads.step Threads.StandsAlone (.init id threshold config) s) :
    s.WonTerm ∧ ∀ a s', s.step a = some s' → (s'.WonTerm ↔ s.StandsAlone a) := by
  have h := Threads.Elections.of_run hrun
  exact ⟨h.wonTerm, fun a s' hstep =>
    ⟨h.standsAlone hstep, fun hok => (h.step hok hstep).wonTerm⟩⟩

/-- Node 1 stands for election in term 1, and the callback of node 2's vote has
seen the majority. -/
def majoritySeen : Threads KvStore :=
  replay Threads.step firstOfThree [.start .timeout, .run 0,
    .start (.reply 2 (.requestVote ⟨1, 1, 0, 0⟩ 2 ⟨1, true⟩)), .run 1]

theorem leads_in_won_term_of_majoritySeen :
    majoritySeen.running (.run 1) = some (.becomeLeader 1) ∧ majoritySeen.node.role = .candidate ∧
      majoritySeen.WonTerm := by
  have hrun : Run Threads.step Threads.StandsAlone firstOfThree majoritySeen :=
    run_replay (by decide +kernel)
  exact ⟨by decide +kernel, by decide +kernel, (leads_in_won_term hrun).1⟩

/-- Before that callback calls `becomeLeader` the election timer fires again. -/
def stoodAgain : Threads KvStore :=
  replay Threads.step majoritySeen [.start .timeout, .run 2]

/-- Node 1 leads in term 2, where it has its own vote only. -/
theorem leads_in_other_term :
    Run Threads.step (fun _ _ => True) firstOfThree stoodAgain ∧
      stoodAgain.running (.run 1) = some (.becomeLeader 1) ∧ stoodAgain.node.role = .candidate ∧
      stoodAgain.step (.run 1) = some (replay Threads.step stoodAgain [.run 1]) ∧
      (replay Threads.step stoodAgain [.run 1]).node.role = .leader ∧
      (replay Threads.step stoodAgain [.run 1]).node.log.currentTerm = 2 ∧
      (replay Threads.step stoodAgain [.run 1]).node.votes 2 = 1 := by
  refine ⟨.trans (run_replay (by decide +kernel) : Run _ _ _ majoritySeen)
    (run_replay (by decide +kernel)), by decide +kernel, by decide +kernel,
    step_replay (by decide +kernel), by decide +kernel, by decide +kernel, by decide +kernel⟩

/-! ## Acting on a request -/

/-- The term of a request that its handler has let through. -/
def Stretch.letThrough? : Stretch → Option Nat
  | .acceptEntries req => some req.term
  | .acceptSnapshot req => some req.term
  | _ => none

theorem Stretch.letThrough?_of_isPlain {k : Stretch} (h : k.isPlain = true) :
    k.letThrough? = none := by
  cases k with
  | acceptEntries | acceptSnapshot => contradiction
  | _ => rfl

/-- The term is not raised above that of a request that was let through. -/
def Threads.HoldsTerm {σ : Type} (s : Threads σ) (a : Threads.Action) : Prop :=
  ∀ k ∈ s.running a, match k with
    | .becomeCandidate =>
        Every (fun k' => ∀ t ∈ k'.letThrough?, s.node.log.currentTerm + 1 ≤ t) s.threads
    | .becomeFollower term _ => Every (fun k' => ∀ t ∈ k'.letThrough?, term ≤ t) s.threads
    | _ => True

instance {σ : Type} (s : Threads σ) (a : Threads.Action) : Decidable (s.HoldsTerm a) := by
  refine @Option.decidableForallMem _ _ (fun k => ?_) (s.running a)
  rcases k with _ | _
  case becomeCandidate | becomeFollower => exact inferInstanceAs (Decidable (Every _ _))
  all_goals exact instDecidableTrue

namespace Stretch

/-- What a stretch hands on: no request, or one it has let through behind a call
of `becomeFollower`. -/
theorem next_letThrough (n : RaftNode σ) (k : Stretch) :
    (∀ k' ∈ (k.run n).next, k'.letThrough? = none) ∨
      ∃ term leader k', (k.run n).next = [.becomeFollower term leader, k'] ∧
        k'.letThrough? = some term ∧ n.log.currentTerm ≤ term ∧ (k.run n).shared = n := by
  cases k with
  | handleAppendEntries req =>
      simp only [run]
      split
      · exact .inl (by simp)
      · exact .inr ⟨_, _, _, rfl, rfl, by omega, rfl⟩
  | handleInstallSnapshot req =>
      simp only [run]
      split
      · exact .inl (by simp)
      · exact .inr ⟨_, _, _, rfl, rfl, by omega, rfl⟩
  | _ =>
      refine .inl fun k' hk' => ?_
      cases next_follows hk' with
      | plain hplain => exact letThrough?_of_isPlain hplain
      | _ => rfl

/-- `k'` follows `k` in a thread: a request that was let through follows its
call of `becomeFollower`. -/
def Precedes (k k' : Stretch) : Prop := ∀ t ∈ k'.letThrough?, ∃ leader, k = .becomeFollower t leader

/-- The requests of a thread are not overtaken by the term, and the one it is
about to act on has met its term. -/
structure InTime (n : RaftNode σ) (ks : List Stretch) : Prop where
  le : ∀ k ∈ ks, ∀ t ∈ k.letThrough?, n.log.currentTerm ≤ t
  head : ∀ k ∈ ks.head?, ∀ t ∈ k.letThrough?, n.log.currentTerm = t ∧ n.role = .follower
  chain : ks.IsChain Precedes

namespace InTime

variable {n : RaftNode σ} {k : Stretch} {ks : List Stretch}

omit [StateMachine σ] in
theorem of_none (h : ∀ k ∈ ks, k.letThrough? = none) : InTime n ks where
  le k hk t ht := by
    rw [h k hk] at ht
    contradiction
  head k hk t ht := by
    rw [h k (List.mem_of_mem_head? hk)] at ht
    contradiction
  chain := by
    have hpairs : ks.Pairwise Precedes := List.pairwise_of_forall_mem_list fun _ _ k' hk' t ht => by
      rw [h k' hk'] at ht
      contradiction
    exact hpairs.isChain

/-- A thread that waits while another one runs `k`. -/
theorem waits (h : InTime n ks)
    (hle : ∀ k' ∈ ks, ∀ t ∈ k'.letThrough?, (k.run n).shared.log.currentTerm ≤ t) :
    InTime (k.run n).shared ks := by
  refine ⟨hle, fun k' hk' t ht => ?_, h.chain⟩
  obtain ⟨hterm, hrole⟩ := h.head k' hk' t ht
  have hle' := hle k' (List.mem_of_mem_head? hk') t ht
  have hmoves := k.moves n
  generalize (k.run n).shared = n' at hmoves hle'
  cases hmoves with
  | stand _ hstand => omega
  | follow term leader =>
      have := (RaftNode.SameData.becomeFollower n term leader).term_le
      exact ⟨by omega, rfl⟩
  | lead _ hcandidate =>
      rw [hrole] at hcandidate
      contradiction
  | vote req | voteLater req =>
      rw [RaftNode.castVote_role, RaftNode.castVote_currentTerm]
      exact ⟨hterm, hrole⟩
  | keep hrole' hterm' => exact ⟨hterm'.trans hterm, hrole'.trans hrole⟩

/-- The rest of the thread that runs `k`, before what `k` puts in front. -/
theorem rest (h : InTime n (k :: ks))
    (hle : ∀ k' ∈ ks, ∀ t ∈ k'.letThrough?, (k.run n).shared.log.currentTerm ≤ t) :
    InTime (k.run n).shared ((k.run n).next ++ ks) := by
  -- only a call of `becomeFollower`, which hands nothing on, is followed by a request
  have hfollows : ∀ k' ∈ ks.head?, ∀ t ∈ k'.letThrough?,
      ∃ leader, k = .becomeFollower t leader := by
    cases ks with
    | nil => nofun
    | cons k' ks =>
        rintro _ ⟨⟩
        exact (List.isChain_cons_cons.mp h.chain).1
  have hlast : ∀ k' ∈ ks.head?, ∀ t ∈ k'.letThrough?, (k.run n).next = [] := fun k' hk' t ht => by
    obtain ⟨leader, rfl⟩ := hfollows k' hk' t ht
    rfl
  have htail : ks.IsChain Precedes := h.chain.tail
  refine ⟨fun k' hk' t ht => ?_, fun k' hk' t ht => ?_, ?_⟩
  · -- a request handed on is of the term the node has just taken over, others are old
    rcases List.mem_append.mp hk' with hk' | hk'
    · rcases next_letThrough n k with hnone | ⟨term, leader, k'', hnext, hterm, hle, hsame⟩
      · rw [hnone k' hk'] at ht
        contradiction
      · rw [hnext] at hk'
        rcases List.mem_cons.mp hk' with rfl | hk'
        · contradiction
        · obtain rfl := List.mem_singleton.mp hk'
          rw [hterm] at ht
          rw [hsame, ← Option.some.inj ht]
          exact hle
    · exact hle k' hk' t ht
  · -- the first of the rest: behind becomeFollower it is of the same term
    cases hnext : (k.run n).next with
    | nil =>
        rw [hnext, List.nil_append] at hk'
        obtain ⟨leader, rfl⟩ := hfollows k' hk' t ht
        have hle' := h.le k' (List.mem_cons_of_mem _ (List.mem_of_mem_head? hk')) t ht
        refine ⟨?_, rfl⟩
        exact n.becomeFollower_currentTerm hle' leader
    | cons x xs =>
        rw [hnext] at hk'
        obtain rfl : x = k' := Option.some.inj hk'
        rcases next_letThrough n k with hnone | ⟨term, leader, k'', hnext', -⟩
        · rw [hnone x (by rw [hnext]; exact List.mem_cons_self)] at ht
          contradiction
        · rw [hnext] at hnext'
          cases hnext'
          contradiction
  · -- and the chain goes on, because only becomeFollower precedes a request
    refine List.isChain_append.mpr ⟨?_, htail, fun x hx y hy t ht => ?_⟩
    · rcases next_letThrough n k with hnone | ⟨term, leader, k'', hnext, hterm, -⟩
      · exact (of_none (n := n) hnone).chain
      · rw [hnext]
        refine List.isChain_cons_cons.mpr ⟨fun t ht => ?_, .singleton _⟩
        rw [hterm] at ht
        exact ⟨leader, by rw [Option.some.inj ht]⟩
    · rw [hlast y hy t ht] at hx
      contradiction

end InTime

end Stretch

namespace Threads

variable {s s' : Threads σ}

def InTime {σ : Type} (s : Threads σ) : Prop := ∀ ks ∈ s.threads, Stretch.InTime s.node ks

/-- The term after a step and the requests that were let through. -/
theorem InTime.le_ran (h : s.InTime) {i : Nat} {k : Stretch} {ks : List Stretch}
    (hi : s.threads[i]? = some (k :: ks)) (hok : s.HoldsTerm (.run i)) :
    Every (fun k' => ∀ t ∈ k'.letThrough?, (k.run s.node).shared.log.currentTerm ≤ t)
        s.threads := by
  have hk := hok k (running_of_getElem? hi)
  intro ks' hks' k' hk' t ht
  have hle := (h ks' hks').le k' hk' t ht
  have hmoves := k.moves s.node
  generalize (k.run s.node).shared = n' at hmoves
  cases hmoves with
  -- a candidacy is excluded while a request is under way
  | stand _ hterm =>
      rw [hterm]
      exact hk ks' hks' k' hk' t ht
  | follow term leader =>
      have hterm : (s.node.becomeFollower term leader).log.currentTerm =
          max s.node.log.currentTerm term := by
        unfold RaftNode.becomeFollower
        split
        · next hgt => exact (Nat.max_eq_right (Nat.le_of_lt hgt)).symm
        · next hle => exact (Nat.max_eq_left (Nat.le_of_not_lt hle)).symm
      rw [hterm]
      exact Nat.max_le.mpr ⟨hle, hk ks' hks' k' hk' t ht⟩
  | lead => exact hle
  -- a vote is cast within the term
  | vote req | voteLater req =>
      rw [RaftNode.castVote_currentTerm]
      exact hle
  | keep _ hterm =>
      rw [hterm]
      exact hle

theorem InTime.step (h : s.InTime) {a : Action} (hok : s.HoldsTerm a)
    (hstep : s.step a = some s') : s'.InTime := by
  obtain ⟨entry, -, rfl⟩ | ⟨i, k, ks, rfl, hi, rfl⟩ | ⟨-, rfl⟩ := step_cases hstep
  · intro ks' hks'
    rcases List.mem_append.mp hks' with hks' | hks'
    · exact h ks' hks'
    · rw [List.mem_singleton.mp hks']
      refine .of_none fun k hk => ?_
      rw [List.mem_singleton.mp hk]
      exact Stretch.letThrough?_of_isPlain entry.isPlain
  · have hle := h.le_ran hi hok
    have hmem := List.mem_of_getElem? hi
    intro ks' hks'
    rcases List.mem_or_eq_of_mem_set hks' with hold | rfl
    · exact (h ks' hold).waits (hle ks' hold)
    · exact (h _ hmem).rest fun k' hk' => hle _ hmem k' (List.mem_cons_of_mem k hk')
  · nofun

end Threads

/-- **A stale request never changes the log**, in every run in which the term is
not raised above that of a request that was let through: when
`handleAppendEntries` acts on a request the node follows in the term of the
request, and when `handleInstallSnapshot` does its term is that of the
request. -/
theorem acts_in_request_term {id : NodeId} {threshold : Nat} {config : ClusterConfig}
    {s : Threads σ}
    (hrun : Run Threads.step Threads.HoldsTerm (.init id threshold config) s) (i : Nat) :
    (∀ req, s.running (.run i) = some (.acceptEntries req) →
      s.node.log.currentTerm = req.term ∧ s.node.role = .follower) ∧
    ∀ req, s.running (.run i) = some (.acceptSnapshot req) → s.node.log.currentTerm = req.term := by
  have h := hrun.invariant (P := Threads.InTime) nofun fun _ _ _ h hok hstep => h.step hok hstep
  have hhead : ∀ k, s.running (.run i) = some k → ∀ t ∈ k.letThrough?,
      s.node.log.currentTerm = t ∧ s.node.role = .follower := fun k hk t ht => by
    obtain ⟨ks, hks, hk⟩ := Option.bind_eq_some_iff.mp hk
    exact (h ks (List.mem_of_getElem? hks)).head k hk t ht
  exact ⟨fun req hreq => hhead _ hreq _ rfl, fun req hreq => (hhead _ hreq _ rfl).1⟩

/-- A request of term 1 from node 2, with an entry that node 2 has created. -/
def firstRequest : AppendEntriesReq := ⟨1, 2, 0, 0, [⟨1, 1, .noOp, []⟩], 0⟩

/-- Node 1 has let the request through. -/
def requestSeen : Threads KvStore :=
  replay Threads.step firstOfThree [.start (.rpc (.appendEntries firstRequest)), .run 0, .run 0]

theorem acts_in_request_term_of_requestSeen :
    requestSeen.running (.run 0) = some (.acceptEntries firstRequest) ∧
      requestSeen.node.log.currentTerm = 1 ∧ requestSeen.node.role = .follower := by
  have hrun : Run Threads.step Threads.HoldsTerm firstOfThree requestSeen :=
    run_replay (by decide +kernel)
  have hrunning : requestSeen.running (.run 0) = some (.acceptEntries firstRequest) := by
    decide +kernel
  exact ⟨hrunning, (acts_in_request_term hrun 0).1 _ hrunning⟩

open Threads.Action (start)

/-- Before it acts on it, it votes for node 3 in term 2. -/
def termRaised : Threads KvStore :=
  replay Threads.step requestSeen
    ([start (.rpc (.requestVote ⟨2, 3, 0, 0⟩ 2))] ++ Threads.runs 1 3)

/-- The entry of term 1 is written in term 2. -/
theorem stale_request_acts :
    Run Threads.step (fun _ _ => True) firstOfThree termRaised ∧
      .answer (.requestVote ⟨2, 3, 0, 0⟩ 2 ⟨2, true⟩) ∈ termRaised.out ∧
      termRaised.running (.run 0) = some (.acceptEntries firstRequest) ∧
      firstRequest.term = 1 ∧ termRaised.node.log.currentTerm = 2 ∧
      termRaised.node.log.entries = [] ∧
      (replay Threads.step termRaised [.run 0]).node.log.entries = firstRequest.entries := by
  refine ⟨.trans (run_replay (by decide +kernel) : Run _ _ _ requestSeen)
    (run_replay (by decide +kernel)), by decide +kernel, by decide +kernel, rfl, by decide +kernel,
    by decide +kernel, by decide +kernel⟩

end KvRaft
