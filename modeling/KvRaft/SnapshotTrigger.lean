import KvRaft.Locked
import KvRaft.RaftNode

/-!
# KvRaft.SnapshotTrigger

The functions of `raft/raft_node.cpp` that move the end of the snapshot or
`lastApplied_`, at the granularity of the calls of the log: a section under `mu_`
is several steps, and a thread without `mu_` may call the log in between.  What
happens under `mu_` between two calls of the log is one step.

`forceSnapshot` compacts the log after it has let go of `mu_`, up to an index that
it read before; `handleInstallSnapshot` moves the end of the snapshot first and
`lastApplied_` after it, but all under `mu_`.

* `exec_handleAppendEntries` and the like — alone, these programs do what
  `RaftNode` says;
* `discipline` — without `mu_` nobody touches `lastApplied_`, and the end of the
  snapshot is moved up to it at most; while `mu_` is free it is not beyond it;
* `run_alone` — a thread that nobody disturbs comes to its end;
* `snapshot_trigger_exact` — `maybeSnapshot` never sees the end of the snapshot beyond
  `lastApplied_`.
-/

namespace KvRaft

namespace Interleaved

inductive Event
  /-- `maybeSnapshot` has read `lastApplied_` and the index of the snapshot -/
  | trigger (last snapIdx : Nat)
  | answer (a : Answer)
  deriving DecidableEq

/-- A piece of a thread's code. -/
abbrev Code (σ α : Type) := Prog (RaftNode σ) Event α

variable {σ : Type}

/-! ## The functions -/

/-- A call that asks the log. -/
def log {β : Type} (f : PersistentLog → β) : Code σ β := .read fun n => f n.log

/-- A call that changes it. -/
def setLog (f : PersistentLog → PersistentLog) : Code σ Unit :=
  .modify fun n => { n with log := f n.log }

def becomeFollower (term : Nat) (leader : NodeId) : Code σ Unit := do
  .acquire
  if term > (← log (·.currentTerm)) then setLog (·.setHardState term 0)
  .modify fun n => { n with role := .follower, leaderId := leader }
  .release

/-- The loop that claims entries, for at most as many rounds as it has to go; both
indices stay under `mu_`. -/
def claim : Nat → Code σ (List LogEntry)
  | 0 => return []
  | fuel + 1 => do
      match ← Prog.read fun n => n.log.entryAt (n.lastApplied + 1) with
      | none => return []
      | some e =>
          .modify fun n => { n with lastApplied := n.lastApplied + 1 }
          return e :: (← claim fuel)

/-- A voter the leader has no progress for starts at the end of its log. -/
def trackVoters : List NodeId → Code σ Unit
  | [] => return
  | v :: voters => do
      if (← Prog.read fun n => (n.nextIndex.lookup v).isNone) then
        let last ← log (·.lastIndex)
        .modify fun n => { n with
          nextIndex := n.nextIndex.insert v (last + 1), matchIndex := n.matchIndex.insert v 0 }
      trackVoters voters

def applyConfigEntry (e : LogEntry) : Code σ Unit := do
  .acquire
  match (ClusterConfig.decode.run' e.data : Except String ClusterConfig) with
  | .error _ => pure ()
  | .ok config =>
      .modify fun n => { n with config }
      if (← Prog.read fun n => n.role) = .leader then trackVoters config.voters
  .release

/-- The back-off loop of `handleAppendEntries`. -/
def conflictStart (t : Nat) : Nat → Code σ Nat
  | 0 => return 0
  | ci + 1 => do
      if ci + 1 > (← log (·.snapshotIndex)) + 1 then
        if (← log (·.termAt ci)) = t then conflictStart t ci else return ci + 1
      else return ci + 1

/-- What `handleAppendEntries` answers if the request does not fit the log. -/
def consistencyCheck (req : AppendEntriesReq) : Code σ (Option AppendEntriesResp) := do
  if req.prevLogIndex = 0 then return none
  let t ← log (·.termAt req.prevLogIndex)
  if t = 0 then
    if req.prevLogIndex > (← log (·.snapshotIndex)) then
      let term ← log (·.currentTerm)
      let last ← log (·.lastIndex)
      let last' ← log (·.lastIndex)
      return some ⟨term, false, last + 1, 0, last'⟩
    else return none
  else if t ≠ req.prevLogTerm then
    let ci ← conflictStart t req.prevLogIndex
    return some ⟨← log (·.currentTerm), false, ci, t, 0⟩
  else return none

variable [StateMachine σ]

/-- The state machine or the configuration takes an entry. -/
def applyOne (e : LogEntry) : Code σ Bytes := do
  match e.type with
  | .command =>
      Prog.update fun n =>
        let (sm, result) := StateMachine.apply n.sm e.data e.index
        ({ n with sm, applied := n.applied ++ [⟨e, n.sm⟩] }, result)
  | .config =>
      applyConfigEntry e
      .modify fun n => { n with applied := n.applied ++ [⟨e, n.sm⟩] }
      return []
  | _ =>
      .modify fun n => { n with applied := n.applied ++ [⟨e, n.sm⟩] }
      return []

def applyLoop : List LogEntry → Code σ Unit
  | [] => return
  | e :: rest => do
      let result ← applyOne e
      .acquire
      .modify fun n => n.storeResult e.index result
      .release
      applyLoop rest

def applyCommittedEntries : Code σ Unit := do
  .acquire
  let toApply ← claim (← Prog.read fun n => n.commitIndex - n.lastApplied)
  .release
  applyLoop toApply

def handleAppendEntries (req : AppendEntriesReq) : Code σ AppendEntriesResp := do
  .acquire
  if req.term < (← log (·.currentTerm)) then
    let term ← log (·.currentTerm)
    .release
    return ⟨term, false, 0, 0, 0⟩
  else
    -- becomeFollower takes the lock itself
    .release
    becomeFollower req.term req.leaderId
    .acquire
    .modify fun n => { n with leaderId := req.leaderId }
    match ← consistencyCheck req with
    | some resp =>
        .release
        return resp
    | none =>
        if req.entries ≠ [] then setLog (·.appendAndSync req.entries)
        .modify fun n => { n with commitIndex :=
          if req.leaderCommit > n.commitIndex then min req.leaderCommit (RaftNode.newLast req)
          else n.commitIndex }
        -- so does applyCommittedEntries, and the term is read under a third lock
        .release
        applyCommittedEntries
        .acquire
        let term ← log (·.currentTerm)
        .release
        return ⟨term, true, RaftNode.newLast req, 0, 0⟩

def handleInstallSnapshot (req : InstallSnapshotReq) : Code σ InstallSnapshotResp := do
  .acquire
  if req.term < (← log (·.currentTerm)) then
    let term ← log (·.currentTerm)
    .release
    return ⟨term⟩
  else
    .release
    becomeFollower req.term req.leaderId
    .acquire
    if req.lastIncludedIndex ≤ (← log (·.snapshotIndex)) then
      let term ← log (·.currentTerm)
      .release
      return ⟨term⟩
    else
      setLog (·.compactUpTo req.lastIncludedIndex req.lastIncludedTerm req.data)
      .modify fun n => { n with sm := StateMachine.restore n.sm req.data }
      .modify fun n => { n with
        commitIndex := max n.commitIndex req.lastIncludedIndex
        lastApplied := max n.lastApplied req.lastIncludedIndex }
      let term ← log (·.currentTerm)
      .release
      return ⟨term⟩

def forceSnapshot : Code σ Unit := do
  .acquire
  let idx ← Prog.read fun n => n.lastApplied
  if idx ≤ (← log (·.snapshotIndex)) then .release
  else
    let term ← log (·.termAt idx)
    .release
    let bytes ← Prog.read fun n => StateMachine.snapshot n.sm
    setLog (·.compactUpTo idx term bytes)

def maybeSnapshot : Code σ Unit := do
  .acquire
  let last ← Prog.read fun n => n.lastApplied
  let snapIdx ← log (·.snapshotIndex)
  .give (.trigger last snapIdx)
  .release
  if (last + 2 ^ 64 - snapIdx) % 2 ^ 64 ≥ (← Prog.read fun n => n.snapshotThresholdEntries) then
    forceSnapshot

/-! ## The functions alone -/

section Exec

omit [StateMachine σ]

variable (n : RaftNode σ)

@[simp] theorem exec_log {β : Type} (f : PersistentLog → β) :
    (log f : Code σ β).exec n = (n, f n.log) := rfl

@[simp] theorem exec_setLog (f : PersistentLog → PersistentLog) :
    (setLog f : Code σ Unit).exec n = ({ n with log := f n.log }, ()) := rfl

@[simp] theorem exec_becomeFollower (term : Nat) (leader : NodeId) :
    (becomeFollower term leader).exec n = (n.becomeFollower term leader, ()) := by
  by_cases hterm : term > n.log.currentTerm
  · simp [becomeFollower, RaftNode.becomeFollower, hterm]
  · simp [becomeFollower, RaftNode.becomeFollower, hterm]

theorem exec_claim (fuel : Nat) : (claim fuel).exec n =
    ({ n with lastApplied := n.lastApplied + (RaftNode.collect n.log n.lastApplied fuel).length },
      RaftNode.collect n.log n.lastApplied fuel) := by
  induction fuel generalizing n with
  | zero => rfl
  | succ fuel ih =>
      simp only [claim, RaftNode.collect, Prog.exec_bind, Prog.exec_read]
      cases n.log.entryAt (n.lastApplied + 1) with
      | none => rfl
      | some e =>
          simp only [Prog.exec_bind, Prog.exec_modify, ih, Prog.exec_pure, List.length_cons]
          rw [Nat.add_assoc, Nat.add_comm 1]

theorem exec_trackVoters (voters : List NodeId) : (trackVoters voters).exec n =
    (voters.foldl (RaftNode.trackVoter n.log.lastIndex) n, ()) := by
  induction voters generalizing n with
  | nil => rfl
  | cons v voters ih =>
      cases hlookup : n.nextIndex.lookup v with
      | none => simp [trackVoters, RaftNode.trackVoter, hlookup, ih]
      | some i => simp [trackVoters, RaftNode.trackVoter, hlookup, ih]

theorem exec_applyConfigEntry (e : LogEntry) :
    (applyConfigEntry e).exec n = (n.applyConfigEntry e, ()) := by
  unfold applyConfigEntry RaftNode.applyConfigEntry
  cases (ClusterConfig.decode.run' e.data : Except String ClusterConfig) with
  | error => simp
  | ok config =>
      by_cases hrole : n.role = .leader
      · simp [hrole, exec_trackVoters]
      · simp [hrole]

@[simp] theorem exec_conflictStart (t ci : Nat) :
    (conflictStart t ci).exec n = (n, RaftNode.conflictStart n.log t ci) := by
  induction ci with
  | zero => rfl
  | succ ci ih =>
      simp only [conflictStart, RaftNode.conflictStart, Prog.exec_bind, exec_log]
      by_cases hci : ci + 1 > n.log.snapshotIndex + 1
      · by_cases ht : n.log.termAt ci = t
        · simp [hci, ht, ih]
        · simp [hci, ht]
      · simp [hci]

theorem exec_consistencyCheck (req : AppendEntriesReq) : (consistencyCheck req).exec n =
    (n, (RaftNode.consistencyCheck n.log req).map fun x =>
      ⟨n.log.currentTerm, false, x.1, x.2.1, x.2.2⟩) := by
  unfold consistencyCheck RaftNode.consistencyCheck
  by_cases hprev : req.prevLogIndex = 0
  · simp [hprev]
  · have hpos : req.prevLogIndex > 0 := Nat.pos_of_ne_zero hprev
    by_cases ht : n.log.termAt req.prevLogIndex = 0
    · by_cases hsnap : req.prevLogIndex > n.log.snapshotIndex
      · simp [hprev, hpos, ht, hsnap]
      · simp [hprev, hpos, ht, hsnap]
    · by_cases hterm : n.log.termAt req.prevLogIndex = req.prevLogTerm
      · have hne : req.prevLogTerm ≠ 0 := hterm ▸ ht
        simp [hprev, hpos, hterm, hne]
      · simp [hprev, hpos, ht, hterm]

end Exec

section Exec

variable (n : RaftNode σ)

theorem exec_applyOne (e : LogEntry) : (applyOne e).exec n = n.applyOne e := by
  unfold applyOne RaftNode.applyOne
  cases e.type with
  | config =>
      obtain ⟨config, nextIndex, matchIndex, hconfig⟩ := n.applyConfigEntry_eq e
      simp only [Prog.exec_bind, Prog.exec_modify, exec_applyConfigEntry, Prog.exec_pure, hconfig]
  | _ => rfl

theorem exec_applyLoop (batch : List LogEntry) :
    (applyLoop batch).exec n = (batch.foldl RaftNode.applyEntry n, ()) := by
  induction batch generalizing n with
  | nil => rfl
  | cons e batch ih => simp [applyLoop, exec_applyOne, RaftNode.applyEntry, ih]

theorem exec_applyCommittedEntries :
    (applyCommittedEntries : Code σ Unit).exec n = (n.applyCommittedEntries, ()) := by
  simp [applyCommittedEntries, exec_claim, exec_applyLoop, RaftNode.applyCommittedEntries,
    RaftNode.claim, RaftNode.toApply]

/-- Alone, `handleAppendEntries` is the handler of the node. -/
theorem exec_handleAppendEntries (req : AppendEntriesReq) :
    (handleAppendEntries req).exec n = n.handleAppendEntries req := by
  unfold handleAppendEntries RaftNode.handleAppendEntries
  by_cases hterm : req.term < n.log.currentTerm
  · simp [hterm]
  · -- `becomeFollower` has set the leader already
    have hlead : { n.becomeFollower req.term req.leaderId with leaderId := req.leaderId } =
        n.becomeFollower req.term req.leaderId := rfl
    cases hcheck : RaftNode.consistencyCheck (n.becomeFollower req.term req.leaderId).log req with
    | some x => simp [hterm, hlead, exec_consistencyCheck, hcheck]
    | none =>
        by_cases hentries : req.entries = []
        · simp [hterm, hlead, exec_consistencyCheck, hcheck, hentries, exec_applyCommittedEntries,
            RaftNode.acceptEntries, PersistentLog.appendAndSync]
        · simp [hterm, hlead, exec_consistencyCheck, hcheck, hentries, exec_applyCommittedEntries,
            RaftNode.acceptEntries]

/-- Alone, `handleInstallSnapshot` is the handler of the node. -/
theorem exec_handleInstallSnapshot (req : InstallSnapshotReq) :
    (handleInstallSnapshot req).exec n = n.handleInstallSnapshot req := by
  unfold handleInstallSnapshot RaftNode.handleInstallSnapshot
  by_cases hterm : req.term < n.log.currentTerm
  · simp [hterm]
  · by_cases hold :
        req.lastIncludedIndex ≤ (n.becomeFollower req.term req.leaderId).log.snapshotIndex
    · simp [hterm, hold]
    · simp [hterm, hold, RaftNode.acceptSnapshot]

theorem exec_forceSnapshot : (forceSnapshot : Code σ Unit).exec n = (n.forceSnapshot, ()) := by
  by_cases hle : n.lastApplied ≤ n.log.snapshotIndex
  · simp [forceSnapshot, RaftNode.forceSnapshot, hle]
  · simp [forceSnapshot, RaftNode.forceSnapshot, hle]

theorem exec_maybeSnapshot : (maybeSnapshot : Code σ Unit).exec n = (n.maybeSnapshot, ()) := by
  by_cases hover : (n.lastApplied + 2 ^ 64 - n.log.snapshotIndex) % 2 ^ 64 ≥
      n.snapshotThresholdEntries
  · simp only [maybeSnapshot, RaftNode.maybeSnapshot, Prog.exec_bind, Prog.exec_acquire,
      Prog.exec_read, exec_log, Prog.exec_give, Prog.exec_release, hover, if_true,
      exec_forceSnapshot]
  · simp only [maybeSnapshot, RaftNode.maybeSnapshot, Prog.exec_bind, Prog.exec_acquire,
      Prog.exec_read, exec_log, Prog.exec_give, Prog.exec_release, hover, if_false, Prog.exec_pure]

end Exec

/-! ## What the threads keep to -/

omit [StateMachine σ] in
/-- Without `mu_`, `lastApplied_` is left alone and the end of the snapshot is moved
up to it at most; with `mu_`, `lastApplied_` grows.  While `mu_` is free, the end of
the snapshot is not beyond it. -/
def discipline : Discipline (RaftNode σ) Event where
  free n n' := n'.lastApplied = n.lastApplied ∧ n.log.snapshotIndex ≤ n'.log.snapshotIndex ∧
    n'.log.snapshotIndex ≤ max n.log.snapshotIndex n.lastApplied
  locked n n' := n.lastApplied ≤ n'.lastApplied
  inv n := n.log.snapshotIndex ≤ n.lastApplied
  good n
    | .trigger last snapIdx => n.lastApplied = last ∧ snapIdx ≤ n.log.snapshotIndex ∧
        n.log.snapshotIndex ≤ n.lastApplied
    | .answer _ => True
  free_refl n := ⟨rfl, Nat.le_refl _, Nat.le_max_left _ _⟩
  locked_refl n := Nat.le_refl _
  inv_free n n' hinv hfree := by
    obtain ⟨hlast, -, hsnap⟩ := hfree
    omega

section Safe

omit [StateMachine σ]

variable {α : Type} {R : Bool → (RaftNode σ → Prop) → α → Prop}
  {R' : Bool → (RaftNode σ → Prop) → Unit → Prop}

/-- A function that leaves both indices alone. -/
def Keeps (f : RaftNode σ → RaftNode σ) : Prop :=
  ∀ n, (f n).lastApplied = n.lastApplied ∧ (f n).log.snapshotIndex = n.log.snapshotIndex

theorem safe_read {f : RaftNode σ → α} (h : ∀ a, R true discipline.inv a) :
    (Prog.read f).Safe discipline true discipline.inv R :=
  Prog.safe_read_same discipline.stable_inv h

theorem safe_log {f : PersistentLog → α} (h : ∀ a, R true discipline.inv a) :
    (log f).Safe discipline true discipline.inv R := safe_read h

theorem safe_keeps {f : RaftNode σ → RaftNode σ} (hf : Keeps f) (h : R' true discipline.inv ()) :
    (Prog.modify f).Safe discipline true discipline.inv R' := by
  refine Prog.safe_modify discipline.inv discipline.stable_inv (fun n hn => ?_) h
  obtain ⟨hlast, hsnap⟩ := hf n
  refine ⟨hlast.ge, ?_⟩
  change (f n).log.snapshotIndex ≤ (f n).lastApplied
  rw [hlast, hsnap]
  exact hn

theorem safe_setLog {f : PersistentLog → PersistentLog}
    (hf : ∀ L, (f L).snapshotIndex = L.snapshotIndex) (h : R' true discipline.inv ()) :
    (setLog f).Safe discipline true discipline.inv R' :=
  safe_keeps (fun n => ⟨rfl, hf n.log⟩) h

/-- Without the lock. -/
theorem safe_keeps_free {f : RaftNode σ → RaftNode σ} (hf : Keeps f)
    (h : R' false Discipline.top ()) :
    (Prog.modify f).Safe discipline false Discipline.top R' := by
  refine Prog.safe_modify Discipline.top (discipline.stable_top false) (fun n _ => ⟨?_, trivial⟩) h
  obtain ⟨hlast, hsnap⟩ := hf n
  exact ⟨hlast, hsnap.ge, hsnap ▸ Nat.le_max_left _ _⟩

theorem safe_becomeFollower {term : Nat} {leader : NodeId} (h : R' false Discipline.top ()) :
    (becomeFollower term leader).Safe discipline false Discipline.top R' := by
  have hend : ((Prog.modify fun n => { n with role := .follower, leaderId := leader }) >>=
      fun _ => Prog.release : Code σ Unit).Safe discipline true discipline.inv R' :=
    Prog.safe_bind.mpr (safe_keeps (fun _ => ⟨rfl, rfl⟩) (Prog.safe_release_inv h))
  refine Prog.safe_bind.mpr (Prog.safe_acquire (Prog.safe_bind.mpr (safe_log fun t => ?_)))
  dsimp only
  split
  · exact Prog.safe_bind.mpr (safe_setLog (fun _ => rfl) hend)
  · exact hend

theorem safe_claim (fuel : Nat) {R : Bool → (RaftNode σ → Prop) → List LogEntry → Prop}
    (h : ∀ es, R true discipline.inv es) :
    (claim fuel).Safe discipline true discipline.inv R := by
  induction fuel generalizing R with
  | zero => exact h []
  | succ fuel ih =>
      refine Prog.safe_bind.mpr (safe_read fun e => ?_)
      cases e with
      | none => exact h []
      | some e =>
          refine Prog.safe_bind.mpr (Prog.safe_modify discipline.inv discipline.stable_inv
            (fun n hn => ⟨Nat.le_succ _, Nat.le_succ_of_le hn⟩) ?_)
          exact Prog.safe_bind.mpr (ih fun es => h (e :: es))

theorem safe_trackVoters (voters : List NodeId) (h : R' true discipline.inv ()) :
    (trackVoters voters).Safe discipline true discipline.inv R' := by
  induction voters with
  | nil => exact h
  | cons v voters ih =>
      refine Prog.safe_bind.mpr (safe_read fun missing => ?_)
      cases missing with
      | false => exact ih
      | true =>
          exact Prog.safe_bind.mpr (safe_log fun last =>
            Prog.safe_bind.mpr (safe_keeps (fun _ => ⟨rfl, rfl⟩) ih))

theorem safe_applyConfigEntry (e : LogEntry) (h : R' false Discipline.top ()) :
    (applyConfigEntry e).Safe discipline false Discipline.top R' := by
  unfold applyConfigEntry
  refine Prog.safe_bind.mpr (Prog.safe_acquire ?_)
  cases (ClusterConfig.decode.run' e.data : Except String ClusterConfig) with
  | error => exact Prog.safe_release_inv h
  | ok config =>
      refine Prog.safe_bind.mpr (safe_keeps (fun _ => ⟨rfl, rfl⟩)
        (Prog.safe_bind.mpr (safe_read fun role => ?_)))
      dsimp only
      split
      · exact Prog.safe_bind.mpr (safe_trackVoters _ (Prog.safe_release_inv h))
      · exact Prog.safe_release_inv h

theorem safe_conflictStart (t ci : Nat) {R : Bool → (RaftNode σ → Prop) → Nat → Prop}
    (h : ∀ i, R true discipline.inv i) :
    (conflictStart t ci).Safe discipline true discipline.inv R := by
  induction ci with
  | zero => exact h 0
  | succ ci ih =>
      refine Prog.safe_bind.mpr (safe_log fun snapIdx => ?_)
      split
      · refine Prog.safe_bind.mpr (safe_log fun term => ?_)
        split
        · exact ih
        · exact h (ci + 1)
      · exact h (ci + 1)

theorem safe_consistencyCheck (req : AppendEntriesReq)
    {R : Bool → (RaftNode σ → Prop) → Option AppendEntriesResp → Prop}
    (h : ∀ resp, R true discipline.inv resp) :
    (consistencyCheck req).Safe discipline true discipline.inv R := by
  unfold consistencyCheck
  split
  · exact h none
  · refine Prog.safe_bind.mpr (safe_log fun t => ?_)
    split
    · refine Prog.safe_bind.mpr (safe_log fun snapIdx => ?_)
      split
      · exact Prog.safe_bind.mpr (safe_log fun term => Prog.safe_bind.mpr (safe_log fun last =>
          Prog.safe_bind.mpr (safe_log fun last' => h _)))
      · exact h none
    · split
      · exact Prog.safe_bind.mpr (safe_conflictStart t _ fun ci =>
          Prog.safe_bind.mpr (safe_log fun term => h _))
      · exact h none

end Safe

section Safe

variable {R : Bool → (RaftNode σ → Prop) → Unit → Prop}

theorem safe_applyOne (e : LogEntry) {R : Bool → (RaftNode σ → Prop) → Bytes → Prop}
    (h : ∀ result, R false Discipline.top result) :
    (applyOne e).Safe discipline false Discipline.top R := by
  unfold applyOne
  cases e.type with
  | command =>
      exact Prog.safe_update Discipline.top (discipline.stable_top false)
        (fun n _ => ⟨discipline.free_refl n, trivial⟩) h
  | config =>
      exact Prog.safe_bind.mpr (safe_applyConfigEntry e (Prog.safe_bind.mpr
        (safe_keeps_free (fun _ => ⟨rfl, rfl⟩) (h []))))
  | _ => exact Prog.safe_bind.mpr (safe_keeps_free (fun _ => ⟨rfl, rfl⟩) (h []))

theorem safe_applyLoop (batch : List LogEntry) (h : R false Discipline.top ()) :
    (applyLoop batch).Safe discipline false Discipline.top R := by
  induction batch with
  | nil => exact h
  | cons e batch ih =>
      exact Prog.safe_bind.mpr (safe_applyOne e fun result =>
        Prog.safe_bind.mpr (Prog.safe_acquire (Prog.safe_bind.mpr
          (safe_keeps (fun _ => ⟨rfl, rfl⟩)
            (Prog.safe_bind.mpr (Prog.safe_release_inv ih))))))

theorem safe_applyCommittedEntries (h : R false Discipline.top ()) :
    applyCommittedEntries.Safe discipline false Discipline.top R :=
  Prog.safe_bind.mpr (Prog.safe_acquire (Prog.safe_bind.mpr (safe_read fun fuel =>
    Prog.safe_bind.mpr (safe_claim fuel fun es =>
      Prog.safe_bind.mpr (Prog.safe_release_inv (safe_applyLoop es h))))))

omit [StateMachine σ] in
/-- The section that a thread ends with a last look at the term. -/
theorem safe_answer {α : Type} {R : Bool → (RaftNode σ → Prop) → α → Prop} (resp : Nat → α)
    (h : ∀ term, R false Discipline.top (resp term)) :
    ((do
      let term ← log (·.currentTerm)
      Prog.release
      return resp term) : Code σ α).Safe discipline true discipline.inv R :=
  Prog.safe_bind.mpr (safe_log fun term =>
    Prog.safe_bind.mpr (Prog.safe_release_inv (h term)))

theorem safe_handleAppendEntries (req : AppendEntriesReq)
    {R : Bool → (RaftNode σ → Prop) → AppendEntriesResp → Prop}
    (h : ∀ resp, R false Discipline.top resp) :
    (handleAppendEntries req).Safe discipline false Discipline.top R := by
  -- after the entries and the commit index
  have hend : ((do
      Prog.modify fun n => { n with commitIndex :=
        if req.leaderCommit > n.commitIndex then min req.leaderCommit (RaftNode.newLast req)
        else n.commitIndex }
      Prog.release
      applyCommittedEntries
      Prog.acquire
      let term ← log (·.currentTerm)
      Prog.release
      return ⟨term, true, RaftNode.newLast req, 0, 0⟩) : Code σ AppendEntriesResp).Safe discipline
        true discipline.inv R :=
    Prog.safe_bind.mpr (safe_keeps (fun _ => ⟨rfl, rfl⟩)
      (Prog.safe_bind.mpr (Prog.safe_release_inv
        (Prog.safe_bind.mpr (safe_applyCommittedEntries
          (Prog.safe_bind.mpr (Prog.safe_acquire (safe_answer _ fun _ => h _))))))))
  -- every access stands between an acquire and its release
  refine Prog.safe_bind.mpr (Prog.safe_acquire (Prog.safe_bind.mpr (safe_log fun t => ?_)))
  dsimp only
  split
  · exact safe_answer _ fun _ => h _
  · refine Prog.safe_bind.mpr (Prog.safe_release_inv (Prog.safe_bind.mpr (safe_becomeFollower
      (Prog.safe_bind.mpr (Prog.safe_acquire (Prog.safe_bind.mpr
        (safe_keeps (fun _ => ⟨rfl, rfl⟩) (Prog.safe_bind.mpr
          (safe_consistencyCheck req fun resp => ?_)))))))))
    -- a conflict is answered at once; otherwise the entries are stored first
    cases resp with
    | some resp => exact Prog.safe_bind.mpr (Prog.safe_release_inv (h resp))
    | none =>
        dsimp only
        split
        · exact Prog.safe_bind.mpr (safe_setLog (fun L => L.appendAndSync_snapshotIndex _) hend)
        · exact hend

/-- The end of the snapshot is ahead of `lastApplied_` by what is being installed. -/
def Installing (i : Nat) (n : RaftNode σ) : Prop := n.log.snapshotIndex ≤ max n.lastApplied i

omit [StateMachine σ] in
theorem stable_installing (i : Nat) :
    (discipline : Discipline (RaftNode σ) Event).Stable true (Installing i) := by
  refine ⟨fun n n' hn hfree => ?_, fun h => by cases h⟩
  obtain ⟨hlast, -, hsnap⟩ := hfree
  unfold Installing at hn ⊢
  omega

theorem safe_handleInstallSnapshot (req : InstallSnapshotReq)
    {R : Bool → (RaftNode σ → Prop) → InstallSnapshotResp → Prop}
    (h : ∀ resp, R false Discipline.top resp) :
    (handleInstallSnapshot req).Safe discipline false Discipline.top R := by
  have hstable := stable_installing (σ := σ) req.lastIncludedIndex
  refine Prog.safe_bind.mpr (Prog.safe_acquire (Prog.safe_bind.mpr (safe_log fun t => ?_)))
  split
  · exact safe_answer _ fun _ => h _
  · refine Prog.safe_bind.mpr (Prog.safe_release_inv (Prog.safe_bind.mpr (safe_becomeFollower
      (Prog.safe_bind.mpr (Prog.safe_acquire (Prog.safe_bind.mpr (safe_log fun snapIdx => ?_)))))))
    split
    · exact safe_answer _ fun _ => h _
    · -- the log first, then the state machine, `lastApplied_` last
      refine Prog.safe_bind.mpr (Prog.safe_modify _ hstable (fun n hn => ⟨Nat.le_refl _, ?_⟩)
        (Prog.safe_bind.mpr (Prog.safe_modify _ hstable (fun n hn => ⟨Nat.le_refl _, hn⟩)
          (Prog.safe_bind.mpr (Prog.safe_modify discipline.inv discipline.stable_inv
            (fun n hn => ⟨Nat.le_max_left _ _, hn⟩) (safe_answer _ fun _ => h _))))))
      change n.log.snapshotIndex ≤ n.lastApplied at hn
      unfold Installing
      rw [PersistentLog.compactUpTo_snapshotIndex]
      exact max_le_max_right _ hn

omit [StateMachine σ] in
theorem stable_le_lastApplied (idx : Nat) :
    (discipline : Discipline (RaftNode σ) Event).Stable false fun n => idx ≤ n.lastApplied :=
  ⟨fun _ _ hn hfree => hfree.1.symm ▸ hn, fun _ _ _ hn hlocked => Nat.le_trans hn hlocked⟩

/-- A thread with `mu_` has read `lastApplied_`. -/
def Seen (last : Nat) (n : RaftNode σ) : Prop :=
  n.log.snapshotIndex ≤ n.lastApplied ∧ n.lastApplied = last

omit [StateMachine σ] in
theorem stable_seen (last : Nat) :
    (discipline : Discipline (RaftNode σ) Event).Stable true (Seen last) := by
  refine ⟨fun n n' hn hfree => ?_, fun h => by cases h⟩
  exact ⟨discipline.inv_free n n' hn.1 hfree, hfree.1.trans hn.2⟩

theorem safe_forceSnapshot (h : R false Discipline.top ()) :
    forceSnapshot.Safe discipline false Discipline.top R := by
  refine Prog.safe_bind.mpr (Prog.safe_acquire (Prog.safe_bind.mpr (Prog.safe_read fun n hn =>
    ⟨Seen n.lastApplied, ⟨hn, rfl⟩, stable_seen _, ?_⟩)))
  generalize n.lastApplied = idx
  refine Prog.safe_bind.mpr (Prog.safe_read_same (stable_seen idx) fun snapIdx => ?_)
  split
  · exact Prog.safe_release Discipline.top (fun n hn => hn.1) (fun _ _ => trivial)
      (discipline.stable_top false) h
  · -- from here on only the index that was read is known
    have hstable := stable_le_lastApplied (σ := σ) idx
    refine Prog.safe_bind.mpr (Prog.safe_read_same (stable_seen idx) fun term =>
      Prog.safe_bind.mpr (Prog.safe_release (fun n => idx ≤ n.lastApplied) (fun n hn => hn.1)
        (fun n hn => hn.2.ge) hstable (Prog.safe_bind.mpr (Prog.safe_read_same hstable fun bytes =>
          Prog.safe_modify Discipline.top (discipline.stable_top false) (fun n hn => ?_) h))))
    refine ⟨⟨rfl, ?_, ?_⟩, trivial⟩
    · change n.log.snapshotIndex ≤ (n.log.compactUpTo idx term bytes).snapshotIndex
      rw [PersistentLog.compactUpTo_snapshotIndex]
      exact Nat.le_max_left _ _
    · change (n.log.compactUpTo idx term bytes).snapshotIndex ≤ _
      rw [PersistentLog.compactUpTo_snapshotIndex]
      exact max_le_max_left _ hn

theorem safe_maybeSnapshot (h : R false Discipline.top ()) :
    maybeSnapshot.Safe discipline false Discipline.top R := by
  refine Prog.safe_bind.mpr (Prog.safe_acquire (Prog.safe_bind.mpr (Prog.safe_read fun n hn =>
    ⟨Seen n.lastApplied, ⟨hn, rfl⟩, stable_seen _, ?_⟩)))
  generalize n.lastApplied = last
  refine Prog.safe_bind.mpr (Prog.safe_read fun n hn =>
    ⟨fun n' => Seen last n' ∧ n.log.snapshotIndex ≤ n'.log.snapshotIndex, ⟨hn, Nat.le_refl _⟩,
      ⟨fun s t hs hfree => ⟨(stable_seen last).free s t hs.1 hfree, Nat.le_trans hs.2 hfree.2.1⟩,
        fun h => by cases h⟩, ?_⟩)
  refine Prog.safe_bind.mpr (Prog.safe_give (fun n hn => ⟨hn.1.2, hn.2, hn.1.1⟩)
    (Prog.safe_bind.mpr (Prog.safe_release Discipline.top (fun n hn => hn.1.1) (fun _ _ => trivial)
      (discipline.stable_top false) (Prog.safe_bind.mpr
        (Prog.safe_read_same (discipline.stable_top false) fun threshold => ?_)))))
  dsimp only
  split
  · exact safe_forceSnapshot h
  · exact h

end Safe

/-! ## The threads of a node -/

/-- Why a thread enters the node. -/
inductive Request
  | appendEntries (req : AppendEntriesReq)
  | installSnapshot (req : InstallSnapshotReq)
  | applyCommittedEntries
  | forceSnapshot
  | maybeSnapshot
  deriving DecidableEq

def Request.code : Request → Code σ Unit
  | appendEntries req => do .give (.answer (.appendEntries req (← handleAppendEntries req)))
  | installSnapshot req => do .give (.answer (.installSnapshot req (← handleInstallSnapshot req)))
  | applyCommittedEntries => Interleaved.applyCommittedEntries
  | forceSnapshot => Interleaved.forceSnapshot
  | maybeSnapshot => Interleaved.maybeSnapshot

theorem Request.safe (request : Request) :
    (request.code : Code σ Unit).Safe discipline false Discipline.top Workers.Ended := by
  cases request with
  | appendEntries req =>
      exact Prog.safe_bind.mpr (safe_handleAppendEntries req fun _ =>
        Prog.safe_give (fun _ _ => trivial) rfl)
  | installSnapshot req =>
      exact Prog.safe_bind.mpr (safe_handleInstallSnapshot req fun _ =>
        Prog.safe_give (fun _ _ => trivial) rfl)
  | applyCommittedEntries => exact safe_applyCommittedEntries rfl
  | forceSnapshot => exact safe_forceSnapshot rfl
  | maybeSnapshot => exact safe_maybeSnapshot rfl

inductive Action
  | start (request : Request)
  /-- thread `i` takes its next step -/
  | run (i : Nat)
  /-- the process ends and a new one starts on what it has left behind -/
  | restart (dir : Directory)
  deriving DecidableEq

def init (id : NodeId) (snapshotThresholdEntries : Nat) (config : ClusterConfig)
    (dir : Directory) : Workers (RaftNode σ) Event :=
  ⟨.new id snapshotThresholdEntries config dir 0 [], none, [], []⟩

def step (s : Workers (RaftNode σ) Event) : Action → Option (Workers (RaftNode σ) Event)
  | .start request => some (s.start request.code)
  | .run i => Workers.step s i
  | .restart dir =>
      let n := s.shared
      some ⟨.new n.id n.snapshotThresholdEntries n.initialConfig dir (n.incarnation + 1) n.applied,
        none, [], s.out⟩

theorem safe_of_run {id : NodeId} {threshold : Nat} {config : ClusterConfig} {dir : Directory}
    {s : Workers (RaftNode σ) Event}
    (r : Run step (fun _ _ => True) (init id threshold config dir) s) : s.Safe discipline := by
  -- a node starts with `lastApplied_` at the end of its snapshot
  refine r.invariant (Workers.safe_idle (Nat.le_refl _) []) fun s a t hs _ hstep => ?_
  cases a with
  | start request =>
      cases hstep
      exact hs.start request.safe
  | run i => exact hs.step hstep
  | restart dir =>
      cases hstep
      exact Workers.safe_idle (Nat.le_refl _) s.out

/-- A thread that nobody disturbs comes to its end and does what its function does
alone. -/
theorem run_alone {id : NodeId} {threshold : Nat} {config : ClusterConfig} {dir : Directory}
    {s : Workers (RaftNode σ) Event}
    (r : Run step (fun _ _ => True) (init id threshold config dir) s) (hidle : s.owner = none)
    (request : Request) :
    (s.start request.code).Finishes s.threads.length (request.code.exec s.shared).1 :=
  Workers.run_alone request.code request.safe trivial (List.getElem?_concat_length ..) hidle
    fun _ => (safe_of_run r).inv hidle

/-- Node 1 of three voters, started on a log with two entries of term 1. -/
def twoEntries : Workers (RaftNode KvStore) Event :=
  init 1 1000 ⟨[1, 2, 3], []⟩
    ⟨some (1, 0), none, some [⟨1, 1, .noOp, []⟩, ⟨1, 2, .noOp, []⟩]⟩

/-- The leader lets node 1 apply both entries.  `forceSnapshot` has let go of `mu_`
and compacts the log just between the two reads of `maybeSnapshot`. -/
def compactedBetween : List Action :=
  List.flatten
    [[.start (.appendEntries ⟨1, 2, 2, 1, [], 2⟩)], List.replicate 19 (.run 0),
      [.start .forceSnapshot], List.replicate 6 (.run 1),
      [.start .maybeSnapshot, .run 2, .run 2, .run 1, .run 2]]

end Interleaved

/-- **The snapshot trigger never underflows**: whatever the threads of a node do at
the same time, and whatever it was started on, where `maybeSnapshot` has read both
values the end of the snapshot is not beyond `lastApplied_`, and the unsigned
difference of what it has read is the true one. -/
theorem snapshot_trigger_exact {σ : Type} [StateMachine σ] {id : NodeId} {threshold : Nat}
    {config : ClusterConfig} {dir : Directory} {s : Workers (RaftNode σ) Interleaved.Event}
    (r : Run Interleaved.step (fun _ _ => True) (Interleaved.init id threshold config dir) s)
    {i last snapIdx : Nat} (h : s.giving i = some (.trigger last snapIdx)) :
    s.shared.log.snapshotIndex ≤ s.shared.lastApplied ∧ s.shared.lastApplied = last ∧
      snapIdx ≤ last ∧ (last < 2 ^ 64 → (last + 2 ^ 64 - snapIdx) % 2 ^ 64 = last - snapIdx) := by
  obtain ⟨hlast, hsnap, hinv⟩ := (Interleaved.safe_of_run r).good h
  exact ⟨hinv, hlast, by omega, by omega⟩

theorem snapshot_trigger_exact_of_compacted :
    let s := replay Interleaved.step Interleaved.twoEntries Interleaved.compactedBetween
    s.giving 2 = some (.trigger 2 2) ∧ s.shared.log.snapshotIndex ≤ s.shared.lastApplied := by
  intro s
  have r : Run Interleaved.step (fun _ _ => True) Interleaved.twoEntries s :=
    run_replay (by decide +kernel)
  have htrigger : s.giving 2 = some (.trigger 2 2) := by decide +kernel
  exact ⟨htrigger, (snapshot_trigger_exact r htrigger).1⟩

end KvRaft
