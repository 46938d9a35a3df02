import KvRaft.Frame
import KvRaft.Run
import KvRaft.Threads

/-!
# KvRaft.Refine.Threads

The functions of a node as single steps (`KvRaft.RaftNode`) and as threads
(`KvRaft.Threads`) agree: a thread that runs a function from its first stretch
to its last, while no other thread runs, leaves the node and the outputs of
the single step (`Entry.alone`).  So each step of a node in `KvRaft.Cluster`
is one of the interleavings (`Threads.run_entry`).
-/

namespace KvRaft

variable {σ : Type} [StateMachine σ]

/-- The function a thread enters, as one step; `none` where it has to wait. -/
def Entry.atomic (n : RaftNode σ) : Entry → Option (RaftNode σ × List Output)
  | timeout => some (n.becomeCandidate.1, n.becomeCandidate.2.map .call)
  | heartbeat => some (n, n.broadcastAppendEntries.map .call)
  | snapshotTimer => some (n.maybeSnapshot, [])
  | rpc r => some ((n.handle r).1, [.answer (n.handle r).2])
  | reply peer answer =>
      some ((n.callback peer answer).1, (n.callback peer answer).2.map .call)
  | propose commandBytes => some ((n.propose commandBytes .command).1, [])
  | changeServer (.add id address) => some ((n.addServer id address).1, [])
  | changeServer (.remove id) => some ((n.removeServer id).1, [])
  | forceSnapshot => some (n.forceSnapshot, [])
  | waitApplied index => (n.waitApplied index).map fun result => (n, [.applied index result])
  | readBarrier => match n.readTarget with
      | none => some (n, [])
      | some target =>
          if n.lastApplied ≥ target then
            some (n, n.broadcastAppendEntries.map .call ++ [.readable target])
          else none

/-! ## The functions, one by one -/

namespace RaftNode

open Pool

variable (n : RaftNode σ)

theorem alone_applyLoop (batch : List LogEntry) :
    Alone Stretch.run n [.applyLoop batch] (batch.foldl applyEntry n) [] := by
  induction batch generalizing n with
  | nil => exact .last rfl
  | cons e batch ih => exact .cons (.cons (ih (n.applyEntry e)))

theorem alone_applyCommittedEntries :
    Alone Stretch.run n [.applyCommittedEntries] n.applyCommittedEntries [] :=
  .cons (alone_applyLoop n.claim n.toApply)

theorem alone_tryAdvanceCommitIndex :
    Alone Stretch.run n [.tryAdvanceCommitIndex] n.tryAdvanceCommitIndex [] := by
  unfold tryAdvanceCommitIndex
  split
  · next hrole => exact .last (if_pos hrole)
  · next hrole =>
    split
    · next hnone => exact .last (by simp only [Stretch.run, if_neg hrole, hnone])
    · next candidate hsome =>
      split
      · next hraise =>
        have hrun : Stretch.run n .tryAdvanceCommitIndex =
            ⟨{ n with commitIndex := candidate }, [.applyCommittedEntries], []⟩ := by
          simp only [Stretch.run, if_neg hrole, hsome, if_pos hraise]
        exact .silent hrun (alone_applyCommittedEntries _)
      · next hkeep => exact .last (by simp only [Stretch.run, if_neg hrole, hsome, if_neg hkeep])

theorem alone_propose (commandBytes : Bytes) (type : EntryType) {k : Stretch}
    (hk : Stretch.run n k = Stretch.append n commandBytes type) :
    Alone Stretch.run n [k] (n.propose commandBytes type).1 [] := by
  unfold propose
  split
  · next hrole => exact .last (hk.trans (if_pos hrole))
  · next hrole => exact .silent (hk.trans (if_neg hrole)) (alone_tryAdvanceCommitIndex _)

/-- What one round of the loop over the peers sends. -/
theorem alone_replicateTo (hrole : n.role = .leader) (peer : NodeId) :
    Alone Stretch.run n [.replicateTo peer] n [.call (n.replicateTo peer)] := by
  have hleader : ¬ n.role ≠ .leader := not_not.mpr hrole
  refine .silent rfl (.silent rfl ?_)
  unfold replicateTo
  split
  · -- a snapshot: from its file, or from the state machine
    refine .silent (if_neg hleader) ?_
    cases hbytes : n.log.loadSnapshotBytes with
    | none =>
        have hrun : Stretch.run n (.loadSnapshotBytes peer n.log.currentTerm n.log.snapshotIndex
            n.log.snapshotTerm) = ⟨n, [.snapshotFor peer n.log.currentTerm n.log.snapshotIndex
              n.log.snapshotTerm], []⟩ := by
          simp only [Stretch.run, hbytes]
        refine .silent hrun (.last ?_)
        simp only [Stretch.run, installSnapshotReq, hbytes, Option.getD_none]
    | some bytes =>
        refine .last ?_
        simp only [Stretch.run, installSnapshotReq, hbytes, Option.getD_some]
  · exact .last (if_neg hleader)

theorem alone_broadcastAppendEntries :
    Alone Stretch.run n [.broadcastAppendEntries] n (n.broadcastAppendEntries.map .call) := by
  have hpeers : n.role = .leader → ∀ peers : List NodeId,
      Alone Stretch.run n (peers.map .replicateTo) n ((peers.map n.replicateTo).map .call) := by
    intro hrole peers
    induction peers with
    | nil => exact .nil n
    | cons peer peers ih => exact (alone_replicateTo n hrole peer).append ih
  unfold broadcastAppendEntries
  split
  · next hrole => exact .last (if_pos hrole)
  · next hrole =>
    refine .silent (if_neg hrole) ?_
    rw [List.append_nil]
    exact hpeers (not_not.mp hrole) _

theorem alone_becomeLeader (won : Nat) :
    Alone Stretch.run n [.becomeLeader won] n.becomeLeader.1 (n.becomeLeader.2.map .call) := by
  by_cases hrole : n.role = .candidate
  · have hpropose := alone_propose n.lead [] .noOp (k := .propose [] .noOp) rfl
    have hadvance := alone_tryAdvanceCommitIndex (n.lead.propose [] .noOp).1
    have hsend := alone_broadcastAppendEntries (n.lead.propose [] .noOp).1.tryAdvanceCommitIndex
    have hall := (hpropose.append hadvance).append hsend
    rw [List.nil_append, List.nil_append] at hall
    rw [becomeLeader_snd hrole, becomeLeader_fst hrole]
    exact .silent (if_neg (not_not.mpr hrole)) hall
  · rw [becomeLeader_of_ne hrole]
    exact .last (if_pos hrole)

theorem alone_becomeCandidate :
    Alone Stretch.run n [.becomeCandidate] n.becomeCandidate.1 (n.becomeCandidate.2.map .call) := by
  unfold becomeCandidate
  simp only
  split
  · next hvoter => exact .last (if_pos hvoter)
  · next hvoter =>
    split
    · next hone =>
      exact .silent ((if_neg hvoter).trans (if_pos hone)) (alone_becomeLeader _ _)
    · next hmore =>
      refine .last ((if_neg hvoter).trans ((if_neg hmore).trans ?_))
      rw [List.map_map]
      rfl

theorem alone_answerAppended (req : AppendEntriesReq) :
    Alone Stretch.run n [.answerAppended req] n
      [.answer (.appendEntries req ⟨n.log.currentTerm, true, newLast req, 0, 0⟩)] :=
  .last rfl

theorem alone_handle (r : Rpc) :
    Alone Stretch.run n [(Entry.rpc r).stretch] (n.handle r).1 [.answer (n.handle r).2] := by
  cases r with
  | requestVote req majority =>
      change Alone Stretch.run n [.handleRequestVote req majority] (n.handleRequestVote req).1
        [.answer (.requestVote req majority (n.handleRequestVote req).2)]
      unfold handleRequestVote
      split
      · next hlt => exact .last (if_pos hlt)
      · next hlt =>
        split
        · next hgt => exact .silent ((if_neg hlt).trans (if_pos hgt)) (.cons (.last rfl))
        · next hle => exact .last ((if_neg hlt).trans (if_neg hle))
  | appendEntries req =>
      change Alone Stretch.run n [.handleAppendEntries req] (n.handleAppendEntries req).1
        [.answer (.appendEntries req (n.handleAppendEntries req).2)]
      unfold handleAppendEntries
      split
      · -- a request of an older term is answered at once
        next hlt => exact .last (if_pos hlt)
      · next hlt =>
        -- otherwise the node follows, then checks, and applies in sections of their own
        refine .silent (if_neg hlt) (.silent rfl ?_)
        have hsame : { n.becomeFollower req.term req.leaderId with leaderId := req.leaderId } =
            n.becomeFollower req.term req.leaderId := rfl
        simp only
        split
        · next hconflict => exact .last (by simp only [Stretch.run, hsame, hconflict])
        · next hpass =>
          have hrun : Stretch.run (n.becomeFollower req.term req.leaderId) (.acceptEntries req) =
              ⟨(n.becomeFollower req.term req.leaderId).acceptEntries req,
                [.applyCommittedEntries, .answerAppended req], []⟩ := by
            simp only [Stretch.run, hsame, hpass]
          exact .silent hrun ((alone_applyCommittedEntries _).append (alone_answerAppended _ req))
  | installSnapshot req =>
      change Alone Stretch.run n [.handleInstallSnapshot req] (n.handleInstallSnapshot req).1
        [.answer (.installSnapshot req (n.handleInstallSnapshot req).2)]
      unfold handleInstallSnapshot
      split
      · next hlt => exact .last (if_pos hlt)
      · next hlt =>
        refine .silent (if_neg hlt) (.silent rfl ?_)
        -- only the snapshot's index decides now
        simp only
        split
        · next hle => exact .last (if_pos hle)
        · next hgt => exact .last (if_neg hgt)

theorem alone_callback (peer : NodeId) (answer : Answer) :
    Alone Stretch.run n [(Entry.reply peer answer).stretch] (n.callback peer answer).1
      ((n.callback peer answer).2.map .call) := by
  cases answer with
  | requestVote req majority resp =>
      change Alone Stretch.run n [.onRequestVoteReply req.term majority resp]
        (n.onRequestVoteReply req.term majority resp).1
        ((n.onRequestVoteReply req.term majority resp).2.map .call)
      unfold onRequestVoteReply
      split
      · next hstale => exact .last (if_pos hstale)
      · next hstale =>
        split
        · next hgt => exact .silent ((if_neg hstale).trans (if_pos hgt)) (.last rfl)
        · next hle =>
          split
          · next hgranted =>
            simp only
            -- the winning vote goes on to the leader's first broadcast
            split
            · next hwon =>
              exact .silent ((if_neg hstale).trans ((if_neg hle).trans ((if_pos hgranted).trans
                (if_pos hwon)))) (alone_becomeLeader _ req.term)
            · next hmore =>
              exact .last ((if_neg hstale).trans ((if_neg hle).trans ((if_pos hgranted).trans
                (if_neg hmore))))
          · next hdenied =>
            exact .last ((if_neg hstale).trans ((if_neg hle).trans (if_neg hdenied)))
  | appendEntries req resp =>
      change Alone Stretch.run n [.onAppendEntriesReply peer req.term resp]
        (n.onAppendEntriesReply peer req.term resp) []
      unfold onAppendEntriesReply
      split
      · next hgt => exact .silent (if_pos hgt) (.last rfl)
      · next hle =>
        split
        · next hstale => exact .last ((if_neg hle).trans (if_pos hstale))
        · next hstale =>
          split
          · next hok =>
            -- an acknowledged entry may advance the commit index
            exact .silent ((if_neg hle).trans ((if_neg hstale).trans (if_pos hok)))
              (alone_tryAdvanceCommitIndex _)
          · next hfail =>
            exact .last ((if_neg hle).trans ((if_neg hstale).trans (if_neg hfail)))
  | installSnapshot req resp =>
      change Alone Stretch.run n [.onInstallSnapshotReply peer req.lastIncludedIndex resp]
        (n.onInstallSnapshotReply peer req.lastIncludedIndex resp) []
      unfold onInstallSnapshotReply
      split
      · next hgt => exact .silent (if_pos hgt) (.last rfl)
      · next hle => exact .last (if_neg hle)

theorem alone_forceSnapshot : Alone Stretch.run n [.forceSnapshot] n.forceSnapshot [] := by
  unfold forceSnapshot
  split
  · next hle => exact .last (if_pos hle)
  · next hgt => exact .silent (if_neg hgt) (.silent rfl (.last rfl))

theorem alone_maybeSnapshot : Alone Stretch.run n [.maybeSnapshot] n.maybeSnapshot [] := by
  unfold maybeSnapshot
  split
  · next hmany => exact .silent (if_pos hmany) (alone_forceSnapshot n)
  · next hfew => exact .last (if_neg hfew)

end RaftNode

/-! ## All of them -/

open RaftNode in
/-- A thread that is not interrupted does what the function does as one step. -/
theorem Entry.alone {entry : Entry} {n n' : RaftNode σ} {out : List Output}
    (h : entry.atomic n = some (n', out)) :
    Pool.Alone Stretch.run n [entry.stretch] n' out := by
  cases entry with
  | timeout => cases h; exact alone_becomeCandidate n
  | heartbeat => cases h; exact alone_broadcastAppendEntries n
  | snapshotTimer => cases h; exact alone_maybeSnapshot n
  | rpc r => cases h; exact alone_handle n r
  | reply peer answer => cases h; exact alone_callback n peer answer
  | propose commandBytes => cases h; exact alone_propose n commandBytes .command rfl
  | changeServer change =>
      cases change with
      | add id address => cases h; exact .silent rfl (alone_propose n _ .config rfl)
      | remove id => cases h; exact .silent rfl (alone_propose n _ .config rfl)
  | forceSnapshot => cases h; exact alone_forceSnapshot n
  | waitApplied index =>
      obtain ⟨result, hresult, heq⟩ := Option.map_eq_some_iff.mp h
      cases heq
      exact .last (by simp only [Entry.stretch, Stretch.run, hresult])
  | readBarrier =>
      -- the barrier returns at once only if its target is applied already
      simp only [Entry.atomic] at h
      cases htarget : n.readTarget with
      | none =>
          rw [htarget] at h
          cases h
          exact .last (by simp only [Entry.stretch, Stretch.run, htarget])
      | some target =>
          rw [htarget] at h
          simp only [Option.ite_none_right_eq_some] at h
          obtain ⟨hle, heq⟩ := h
          cases heq
          have hrun : Stretch.run n .linearizableReadBarrier =
              ⟨n, [.broadcastAppendEntries, .awaitTarget target], []⟩ := by
            simp only [Stretch.run, htarget]
          exact .silent hrun ((alone_broadcastAppendEntries n).append (.last (if_pos hle)))

namespace Threads

/-- A thread that runs alone is a run of all threads. -/
theorem run_alone {n n' : RaftNode σ} {ks rest : List Stretch} {out : List Output}
    (h : Pool.Alone Stretch.run n ks n' out) {s : Threads σ} {i : Nat} (hn : s.node = n)
    (hi : s.threads[i]? = some (ks ++ rest)) :
    ∃ s', Run step (fun _ a => a = .run i) s s' ∧ s'.node = n' ∧
      s'.threads = s.threads.set i rest ∧ s'.out = s.out ++ out := by
  -- induction on the sections left: each one runs, and its outputs come first
  induction h generalizing s with
  | nil n =>
      refine ⟨s, .refl s, hn, ?_, (List.append_nil _).symm⟩
      obtain ⟨hlt, heq⟩ := List.getElem?_eq_some_iff.mp hi
      rw [← List.nil_append rest, ← heq, List.set_getElem_self]
  | @cons n n' k ks out hrest ih =>
      subst hn
      have hlt := (List.getElem?_eq_some_iff.mp hi).1
      have hstep : s.step (.run i) = some (s.ran i k (ks ++ rest)) := by
        simp only [step, hi, List.cons_append]
      have hnext : (s.ran i k (ks ++ rest)).threads[i]? =
          some (((k.run s.node).next ++ ks) ++ rest) := by
        rw [List.append_assoc]
        exact List.getElem?_set_self hlt
      obtain ⟨s', hrun, hnode, hthreads, hout⟩ := ih rfl hnext
      refine ⟨s', .trans (.single rfl hstep) hrun, hnode, ?_, ?_⟩
      · rw [hthreads]
        exact List.set_set _
      · rw [hout]
        exact List.append_assoc _ _ _

/-- Whatever the other threads are doing, a new thread may run its function as
one step. -/
theorem run_entry {entry : Entry} {s : Threads σ} {n' : RaftNode σ} {out : List Output}
    (h : entry.atomic s.node = some (n', out)) :
    ∃ s', Run step (fun _ _ => True) s s' ∧ s'.node = n' ∧ s'.threads = s.threads ++ [[]] ∧
      s'.out = s.out ++ out := by
  have hnew : (s.threads ++ [[entry.stretch]])[s.threads.length]? =
      some ([entry.stretch] ++ []) := by
    simp
  obtain ⟨s', hrun, hnode, hthreads, hout⟩ :=
    run_alone (Entry.alone h) (s := { s with threads := s.threads ++ [[entry.stretch]] }) rfl hnew
  refine ⟨s', .trans (.single (a := .start entry) trivial rfl) (hrun.mono fun _ _ _ => trivial),
    hnode, ?_, hout⟩
  rw [hthreads]
  simp

end Threads

end KvRaft
