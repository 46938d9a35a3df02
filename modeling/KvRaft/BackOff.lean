import KvRaft.Effect

/-!
# KvRaft.BackOff

How a leader and a follower whose logs differ find the place where they agree.
The reply to a request that fails the consistency check lists a hint, but one
field early: what is meant as the index to go on from stands in `matchIndex`, and
`conflictIndex` holds the term the follower has instead.

* `hint_misplaced` — the fields that the documentation names never hold the hint;
* `backoff_progress_iff` — the leader takes the follower's term for an index, so
  it makes progress exactly as long as that term is below the index it tried.
-/

namespace KvRaft

namespace RaftNode

/-! ## The hint -/

/-- The hint as it is documented, for a request that starts at `prev`: the end of
a log that does not reach `prev`, else the start of the run of entries with the
term that the log has at `prev`, and this term. -/
structure IsHint (log : PersistentLog) (prev conflictIndex conflictTerm : Nat) : Prop where
  short : log.lastIndex < prev → conflictIndex = log.lastIndex + 1
  term : prev ≤ log.lastIndex → conflictTerm = log.termAt prev
  above : prev ≤ log.lastIndex → log.snapshotIndex < conflictIndex
  run : prev ≤ log.lastIndex →
    ∀ i, conflictIndex ≤ i → i ≤ prev → log.termAt i = log.termAt prev
  first : prev ≤ log.lastIndex → ∀ j, log.snapshotIndex < j →
    (∀ i, j ≤ i → i ≤ prev → log.termAt i = log.termAt prev) → conflictIndex ≤ j

/-- The back-off loop ends at the start of the run. -/
theorem conflictStart_spec {log : PersistentLog} {t : Nat} :
    ∀ {ci : Nat}, log.snapshotIndex < ci → log.termAt ci = t →
      log.snapshotIndex < conflictStart log t ci ∧
      (∀ i, conflictStart log t ci ≤ i → i ≤ ci → log.termAt i = t) ∧
      ∀ j, log.snapshotIndex < j → (∀ i, j ≤ i → i ≤ ci → log.termAt i = t) →
        conflictStart log t ci ≤ j
  | ci + 1, habove, hterm => by
      rw [conflictStart]
      split
      · next hgo =>
        have hlower : log.snapshotIndex < ci := by omega
        obtain ⟨hsnap, hrun, hfirst⟩ := conflictStart_spec hlower hgo.2
        refine ⟨hsnap, fun i hi hle => ?_, fun j hj hall => ?_⟩
        · obtain rfl | hlt := Nat.eq_or_lt_of_le hle
          · exact hterm
          · exact hrun i hi (by omega)
        · exact hfirst j hj fun i hi hle => hall i hi (by omega)
      · next hstop =>
        refine ⟨habove, fun i hi hle => ?_, fun j hj hall => ?_⟩
        · rwa [Nat.le_antisymm hle hi]
        · -- a run that starts earlier would have let the loop go on
          by_contra hlt
          exact hstop ⟨by omega, hall ci (by omega) (by omega)⟩

/-- The hint of a log that is too short. -/
theorem IsHint.of_lt {log : PersistentLog} {prev : Nat} (h : log.lastIndex < prev)
    (conflictTerm : Nat) : IsHint log prev (log.lastIndex + 1) conflictTerm := by
  have hnot : ¬ prev ≤ log.lastIndex := Nat.not_le_of_lt h
  constructor
  · exact fun _ => rfl
  all_goals exact fun hreach => absurd hreach hnot

/-- The hint of a log that reaches the start of the request. -/
theorem isHint_conflictStart {log : PersistentLog} {prev : Nat}
    (habove : log.snapshotIndex < prev) (hreach : prev ≤ log.lastIndex) :
    IsHint log prev (conflictStart log (log.termAt prev) prev) (log.termAt prev) := by
  obtain ⟨hsnap, hrun, hfirst⟩ := conflictStart_spec habove rfl
  constructor
  · exact fun hshort => absurd hreach (Nat.not_le_of_lt hshort)
  · exact fun _ => rfl
  · exact fun _ => hsnap
  · exact fun _ => hrun
  · exact fun _ => hfirst

variable {σ : Type} [StateMachine σ]

/-! ## A request that fails the consistency check -/

/-- What the check answers, in the order of the reply's fields. -/
theorem of_consistencyCheck_some {log : PersistentLog} {req : AppendEntriesReq}
    {matchIndex conflictIndex conflictTerm : Nat}
    (h : consistencyCheck log req = some (matchIndex, conflictIndex, conflictTerm)) :
    0 < req.prevLogIndex ∧ conflictIndex = log.termAt req.prevLogIndex ∧
      (conflictIndex = 0 ∧ log.snapshotIndex < req.prevLogIndex ∧
          matchIndex = log.lastIndex + 1 ∧ conflictTerm = log.lastIndex ∨
        conflictIndex ≠ 0 ∧
          matchIndex = conflictStart log (log.termAt req.prevLogIndex) req.prevLogIndex ∧
          conflictTerm = 0) := by
  unfold consistencyCheck at h
  split at h
  · next hpos =>
    simp only at h
    split at h
    · next hshort =>
      cases h
      exact ⟨hpos, hshort.1.symm, .inl ⟨rfl, hshort.2, rfl, rfl⟩⟩
    · split at h
      · next hother =>
        cases h
        exact ⟨hpos, rfl, .inr ⟨hother.1, rfl, rfl⟩⟩
      · contradiction
  · contradiction

theorem handleAppendEntries_of_failed {n : RaftNode σ} {req : AppendEntriesReq}
    {matchIndex conflictIndex conflictTerm : Nat} (hterm : n.log.currentTerm ≤ req.term)
    (h : consistencyCheck n.log req = some (matchIndex, conflictIndex, conflictTerm)) :
    n.handleAppendEntries req = (n.becomeFollower req.term req.leaderId,
      ⟨req.term, false, matchIndex, conflictIndex, conflictTerm⟩) := by
  have hcurrent := n.becomeFollower_currentTerm hterm req.leaderId
  unfold handleAppendEntries
  rw [if_neg (Nat.not_lt_of_le hterm)]
  simp only [consistencyCheck_becomeFollower, h, hcurrent]

/-- **The hint is not where it is documented**: the reply to a request that fails
the consistency check never has the hint in `conflictIndex` and `conflictTerm`.
Above the snapshot it stands one field early. -/
theorem hint_misplaced {n : RaftNode σ} {req : AppendEntriesReq} (h : n.log.Aligned)
    (hterm : n.log.currentTerm ≤ req.term) (hfails : consistencyCheck n.log req ≠ none) :
    ¬ IsHint n.log req.prevLogIndex (n.handleAppendEntries req).2.conflictIndex
        (n.handleAppendEntries req).2.conflictTerm ∧
      ((∀ e ∈ n.log.entries, e.term ≠ 0) → n.log.snapshotIndex < req.prevLogIndex →
        IsHint n.log req.prevLogIndex (n.handleAppendEntries req).2.matchIndex
          (n.handleAppendEntries req).2.conflictIndex) := by
  obtain ⟨⟨matchIndex, conflictIndex, conflictTerm⟩, hcheck⟩ :=
    Option.ne_none_iff_exists'.mp hfails
  rw [handleAppendEntries_of_failed hterm hcheck]
  obtain ⟨-, rfl, ⟨hzero, -, rfl, rfl⟩ | ⟨hne, rfl, rfl⟩⟩ := of_consistencyCheck_some hcheck
  · -- no entry at that index: the term sent in place of the index is 0
    refine ⟨fun hhint => ?_, fun hterms habove => ?_⟩
    · rcases Nat.lt_or_ge n.log.lastIndex req.prevLogIndex with hshort | hreach
      · have hindex : n.log.termAt req.prevLogIndex = n.log.lastIndex + 1 := hhint.short hshort
        omega
      · have habove : n.log.snapshotIndex < n.log.termAt req.prevLogIndex := hhint.above hreach
        omega
    · -- without terms 0 this happens only past the end of the log
      have hshort : n.log.lastIndex < req.prevLogIndex := by
        by_contra hreach
        obtain ⟨e, he, -, heq⟩ := h.exists_mem_of_le habove (Nat.le_of_not_lt hreach)
        exact hterms e he (heq ▸ hzero)
      exact .of_lt hshort _
  · -- an entry of another term: its term stands where the index belongs
    have hreach := h.le_lastIndex hne
    exact ⟨fun hhint => hne (hhint.term hreach).symm,
      fun _ habove => isHint_conflictStart habove hreach⟩

/-- A follower whose second and third entry have term 2. -/
def secondTerm : RaftNode KvStore :=
  .new 2 1000 ⟨[1, 2, 3], []⟩
    ⟨some (4, 0), none, some [⟨1, 1, .noOp, []⟩, ⟨2, 2, .noOp, []⟩, ⟨2, 3, .command, []⟩]⟩ 0 []

/-- The reply to a request of term 4 that expects term 3 at index 3. -/
theorem hint_misplaced_of_secondTerm :
    let req : AppendEntriesReq := ⟨4, 1, 3, 3, [], 0⟩
    (secondTerm.handleAppendEntries req).2 = ⟨4, false, 2, 2, 0⟩ ∧
      ¬ IsHint secondTerm.log 3 2 0 ∧ IsHint secondTerm.log 3 2 2 := by
  intro req
  have hfails : consistencyCheck secondTerm.log req ≠ none := by decide
  obtain ⟨hnot, hearly⟩ := hint_misplaced (by decide) (by decide) hfails
  exact ⟨by decide, hnot, hearly (by decide) (by decide)⟩

/-- **The fields of the reply are shifted**: index 2, where the run of term 2
starts, stands in `matchIndex`, the term in `conflictIndex`, and a log that is too
short is answered with index 0. -/
theorem hint_fields_shifted :
    secondTerm.log.Aligned ∧
      (secondTerm.handleAppendEntries ⟨4, 1, 3, 3, [], 0⟩).2 = ⟨4, false, 2, 2, 0⟩ ∧
      ¬ IsHint secondTerm.log 3 2 0 ∧
      (secondTerm.handleAppendEntries ⟨4, 1, 5, 3, [], 0⟩).2 = ⟨4, false, 4, 0, 3⟩ ∧
      ¬ IsHint secondTerm.log 5 0 3 := by
  refine ⟨by decide, by decide, fun hhint => ?_, by decide, fun hhint => ?_⟩
  · exact absurd (hhint.term (by decide)) (by decide)
  · exact absurd (hhint.short (by decide)) (by decide)

/-! ## Rounds of a leader and a follower -/

/-- The next index the leader sends to the peer. -/
def nextFor (n : RaftNode σ) (peer : NodeId) : Nat := (n.nextIndex.lookup peer).getD 1

/-- One round: the leader's request to the peer, the peer's handler and the
leader's callback. -/
def exchange (peer : NodeId) (p : RaftNode σ × RaftNode σ) : RaftNode σ × RaftNode σ :=
  let req := p.1.appendEntriesReq peer
  let (follower, resp) := p.2.handleAppendEntries req
  (p.1.onAppendEntriesReply peer req.term resp, follower)

/-- The follower accepts the request of the round. -/
def Succeeds (peer : NodeId) (p : RaftNode σ × RaftNode σ) : Prop :=
  (p.2.handleAppendEntries (p.1.appendEntriesReq peer)).2.success = true

/-- The logs do not match where the request of the round starts. -/
def Mismatch (peer : NodeId) (p : RaftNode σ × RaftNode σ) : Prop :=
  consistencyCheck p.2.log (p.1.appendEntriesReq peer) ≠ none

/-- The follower's term at the start of the request is below the next index. -/
def TermBelow (peer : NodeId) (p : RaftNode σ × RaftNode σ) : Prop :=
  p.2.log.termAt (p.1.nextFor peer - 1) < p.1.nextFor peer

/-- A leader and a node that is not ahead of it. -/
structure Leads (p : RaftNode σ × RaftNode σ) : Prop where
  role : p.1.role = .leader
  term : p.2.log.currentTerm ≤ p.1.log.currentTerm

variable {peer : NodeId} {p : RaftNode σ × RaftNode σ}

theorem Leads.succeeds (h : Leads p) (hmatch : ¬ Mismatch peer p) : Succeeds peer p := by
  unfold Succeeds handleAppendEntries
  have hterm : ¬ (p.1.appendEntriesReq peer).term < p.2.log.currentTerm := Nat.not_lt_of_le h.term
  rw [if_neg hterm]
  simp only [consistencyCheck_becomeFollower, not_not.mp hmatch]

/-- A round in which the logs do not match: the follower's term becomes the
leader's next index. -/
theorem Leads.exchange_eq (h : Leads p) (hmismatch : Mismatch peer p) :
    1 < p.1.nextFor peer ∧ exchange peer p =
      ({ p.1 with
          nextIndex := p.1.nextIndex.insert peer
            (max 1 (p.2.log.termAt (p.1.nextFor peer - 1))) },
        p.2.becomeFollower p.1.log.currentTerm p.1.id) := by
  obtain ⟨⟨matchIndex, conflictIndex, conflictTerm⟩, hcheck⟩ :=
    Option.ne_none_iff_exists'.mp hmismatch
  obtain ⟨hpos, hconflict, -⟩ := of_consistencyCheck_some hcheck
  have hhandle := handleAppendEntries_of_failed h.term hcheck
  have hnext : max 1 (if conflictIndex > 0 then conflictIndex else 1) =
      max 1 (p.2.log.termAt (p.1.nextFor peer - 1)) := by
    change conflictIndex = p.2.log.termAt (p.1.nextFor peer - 1) at hconflict
    rw [← hconflict]
    split <;> omega
  have hsent : (p.1.appendEntriesReq peer).term = p.1.log.currentTerm := rfl
  refine ⟨Nat.lt_of_sub_pos hpos, ?_⟩
  simp only [RaftNode.exchange, hhandle, onAppendEntriesReply, hsent]
  rw [if_neg (Nat.lt_irrefl _), if_neg (by simp [h.role]), if_neg Bool.false_ne_true, hnext]
  rfl

theorem Leads.exchange (h : Leads p) (hmismatch : Mismatch peer p) : Leads (exchange peer p) := by
  rw [(h.exchange_eq hmismatch).2]
  exact ⟨h.role, (p.2.becomeFollower_currentTerm h.term _).le⟩

theorem Leads.nextFor_exchange (h : Leads p) (hmismatch : Mismatch peer p) :
    (RaftNode.exchange peer p).1.nextFor peer =
      max 1 (p.2.log.termAt (p.1.nextFor peer - 1)) := by
  rw [(h.exchange_eq hmismatch).2, nextFor, AList.lookup_insert]
  rfl

theorem Leads.nextFor_lt_iff (h : Leads p) (hmismatch : Mismatch peer p) :
    1 ≤ (RaftNode.exchange peer p).1.nextFor peer ∧
      (RaftNode.exchange peer p).1.nextFor peer < p.1.nextFor peer ↔ TermBelow peer p := by
  have hpos := (h.exchange_eq hmismatch).1
  rw [h.nextFor_exchange hmismatch, TermBelow]
  omega

theorem Leads.fails (h : Leads p) (hmismatch : Mismatch peer p) : ¬ Succeeds peer p := by
  obtain ⟨⟨matchIndex, conflictIndex, conflictTerm⟩, hcheck⟩ :=
    Option.ne_none_iff_exists'.mp hmismatch
  rw [Succeeds, handleAppendEntries_of_failed h.term hcheck]
  exact Bool.false_ne_true

/-- Where the follower's term is the next index itself, every round is like the
one before. -/
theorem Leads.stuck (h : Leads p) (hmismatch : Mismatch peer p)
    (hterm : p.2.log.termAt (p.1.nextFor peer - 1) = p.1.nextFor peer) (k : Nat) :
    ¬ Succeeds peer ((RaftNode.exchange peer)^[k] p) := by
  -- induction on the exchanges: the pair after one is in the same position as before
  induction k generalizing p with
  | zero => exact h.fails hmismatch
  | succ k ih =>
      obtain ⟨hpos, heq⟩ := h.exchange_eq hmismatch
      have hnext : (RaftNode.exchange peer p).1.nextFor peer = p.1.nextFor peer := by
        rw [h.nextFor_exchange hmismatch, hterm]
        omega
      have hlog (i : Nat) : (RaftNode.exchange peer p).2.log.termAt i = p.2.log.termAt i := by
        rw [heq]
        simp only [becomeFollower]
        split <;> rfl
      have hreq : (RaftNode.exchange peer p).1.appendEntriesReq peer =
          p.1.appendEntriesReq peer := by
        unfold nextFor at hnext
        simp only [appendEntriesReq, hnext]
        rw [heq]
      refine ih (h.exchange hmismatch) ?_ (by rw [hlog, hnext, hterm])
      unfold Mismatch
      rw [hreq, heq, consistencyCheck_becomeFollower]
      exact hmismatch

/-- **When the back-off makes progress**: a round in which the logs do not match
leaves the leader with a lower next index, not below 1, exactly if the follower's
term at the start of the request is below the next index; and if this is so in
every round as long as none has succeeded, one of them succeeds. -/
theorem backoff_progress_iff (h : Leads p) :
    (Mismatch peer p →
        (1 ≤ (exchange peer p).1.nextFor peer ∧
            (exchange peer p).1.nextFor peer < p.1.nextFor peer ↔ TermBelow peer p)) ∧
      ((∀ k, (∀ j ≤ k, ¬ Succeeds peer ((exchange peer)^[j] p)) →
          TermBelow peer ((exchange peer)^[k] p)) →
        ∃ k, Succeeds peer ((exchange peer)^[k] p)) := by
  refine ⟨h.nextFor_lt_iff, fun hall => ?_⟩
  refine exists_iterate_of_lt (f := exchange peer) (m := fun p => p.1.nextFor peer)
    (P := fun p => Leads p ∧ ∀ k, (∀ j ≤ k, ¬ Succeeds peer ((exchange peer)^[j] p)) →
      TermBelow peer ((exchange peer)^[k] p)) ?_ ⟨h, hall⟩
  rintro q ⟨hq, hbelow⟩ hfails
  have hmismatch : Mismatch peer q := by
    by_contra hmatch
    exact hfails (hq.succeeds hmatch)
  have hfirst : TermBelow peer q := hbelow 0 fun j hj => by
    rw [Nat.le_zero.mp hj]
    exact hfails
  refine ⟨((hq.nextFor_lt_iff hmismatch).mpr hfirst).2, hq.exchange hmismatch, fun k hnone => ?_⟩
  -- the rounds from the second one on
  refine hbelow (k + 1) fun j hj => ?_
  cases j with
  | zero => exact hfails
  | succ j => exact hnone j (by omega)

/-- A leader of term 4 whose third entry has term 3, with the next index `next`
for node 2. -/
def leaderFrom (next : Nat) : RaftNode KvStore :=
  { RaftNode.new 1 1000 ⟨[1, 2, 3], []⟩
      ⟨some (4, 1), none, some [⟨1, 1, .noOp, []⟩, ⟨1, 2, .command, []⟩, ⟨3, 3, .noOp, []⟩]⟩
      0 [] with
    role := .leader
    nextIndex := AList.singleton 2 next }

/-- From index 4 the leader goes back to the follower's term there, which is 2, and
the second request is accepted. -/
theorem backoff_progress_iff_of_secondTerm :
    TermBelow 2 (leaderFrom 4, secondTerm) ∧
      (exchange 2 (leaderFrom 4, secondTerm)).1.nextFor 2 < 4 ∧
      ∃ k, Succeeds 2 ((exchange 2)^[k] (leaderFrom 4, secondTerm)) := by
  have hleads : Leads (leaderFrom 4, secondTerm) := ⟨rfl, by decide⟩
  have hmismatch : Mismatch 2 (leaderFrom 4, secondTerm) := by unfold Mismatch; decide
  have hbelow : TermBelow 2 (leaderFrom 4, secondTerm) := by unfold TermBelow; decide
  have hsecond : Succeeds 2 ((exchange 2)^[1] (leaderFrom 4, secondTerm)) := by
    unfold Succeeds
    decide
  obtain ⟨hround, hrounds⟩ := backoff_progress_iff hleads
  refine ⟨hbelow, ((hround hmismatch).mpr hbelow).2, hrounds fun k hnone => ?_⟩
  cases k with
  | zero => exact hbelow
  | succ k => exact absurd hsecond (hnone 1 (by omega))

/-- A follower whose only entry has term 2. -/
def laterTerm : RaftNode KvStore :=
  .new 2 1000 ⟨[1, 2, 3], []⟩ ⟨some (2, 0), none, some [⟨2, 1, .noOp, []⟩]⟩ 0 []

/-- **The back-off stops for ever**: the leader tries index 2, the follower has
term 2 at index 1 where the leader has term 1, so the next index becomes 2 again. -/
theorem backoff_is_stuck :
    (leaderFrom 2).log.Aligned ∧ laterTerm.log.Aligned ∧
      (leaderFrom 2).log.Ascending ∧ laterTerm.log.Ascending ∧
      Mismatch 2 (leaderFrom 2, laterTerm) ∧ (leaderFrom 2).nextFor 2 = 2 ∧
      (exchange 2 (leaderFrom 2, laterTerm)).1.nextFor 2 = 2 ∧
      ∀ k, ¬ Succeeds 2 ((exchange 2)^[k] (leaderFrom 2, laterTerm)) := by
  have hleads : Leads (leaderFrom 2, laterTerm) := ⟨rfl, by decide⟩
  have hmismatch : Mismatch 2 (leaderFrom 2, laterTerm) := by unfold Mismatch; decide
  exact ⟨by decide, by decide, by decide, by decide, hmismatch, by decide, by decide,
    hleads.stuck hmismatch (by decide)⟩

end RaftNode

end KvRaft
