import KvRaft.Effect
import KvRaft.Threads

/-!
# KvRaft.ThreadEffect

What one stretch makes of its node (`Stretch.Acts`), what it hands on to the
stretches after it (`Stretch.Follows`) and, from these, what it does to the log and
to what was applied (`Stretch.Does`).  An invariant of a node and its threads is
checked against these cases, once each.  Likewise for what it emits
(`Stretch.Sends`): only a few do so with anything that an invariant is about.

The work of a thread is the entries it has claimed and not yet applied.
-/

namespace KvRaft

variable {σ : Type}

/-- The entries a stretch has yet to apply. -/
def Stretch.work : Stretch → List LogEntry
  | .applyLoop toApply => toApply
  | _ => []

/-- The stretch carries nothing from one hold of the lock to another. -/
def Stretch.isPlain : Stretch → Bool
  | becomeLeader _ | applyLoop _ | storeResult .. | castVote .. | acceptEntries _ | acceptSnapshot _
  | proposeChange .. | takeSnapshot .. | compactUpTo .. => false
  | _ => true

theorem Stretch.work_of_isPlain {k : Stretch} (h : k.isPlain = true) : k.work = [] := by
  cases k with
  | applyLoop => contradiction
  | _ => rfl

theorem Entry.isPlain (entry : Entry) : entry.stretch.isPlain = true := by
  rcases entry with _ | _ | _ | (_ | _ | _) | ⟨_, _ | _ | _⟩ | _ | _ | _ | _ | _ <;> rfl

/-- The histories agree on what was applied. -/
structure History.SameApplied (h h' : History σ) : Prop where
  life : h'.life = h.life
  since : h'.since = h.since
  base : h'.base = h.base
  covered : h'.covered = h.covered

theorem History.SameApplied.refl (h : History σ) : h.SameApplied h := ⟨rfl, rfl, rfl, rfl⟩

open RaftNode (SameData)

variable [StateMachine σ]

/-! ## What a stretch makes of its node -/

namespace Stretch

/-- The node after it stood for election. -/
theorem run_becomeCandidate (n : RaftNode σ) :
    ∃ votes, (run n .becomeCandidate).shared = { n.stand with votes } := by
  dsimp only [run]
  split
  · exact ⟨n.stand.votes, rfl⟩
  · split <;> exact ⟨_, rfl⟩

/-- `Acts n k n'`: the stretch `k` makes the node `n'` of `n`. -/
inductive Acts (n : RaftNode σ) : Stretch → RaftNode σ → Prop
  | idle (k : Stretch) : Acts n k n
  | follow (term : Nat) (leader : NodeId) :
      Acts n (.becomeFollower term leader) (n.becomeFollower term leader)
  | stand (votes : Nat → Nat) : Acts n .becomeCandidate { n.stand with votes }
  | lead (won : Nat) (hrole : n.role = .candidate) : Acts n (.becomeLeader won) n.lead
  | propose (data : Bytes) (type : EntryType) (hrole : n.role = .leader) :
      Acts n (.propose data type) { n with log := n.log.appendAndSync [n.newEntry data type] }
  | change (change : Change) (seen : ClusterConfig) (hrole : n.role = .leader) :
      Acts n (.proposeChange change seen)
        { n with log := n.log.appendAndSync [n.newEntry (change.apply seen).encode .config] }
  | commit (i : Nat) : Acts n .tryAdvanceCommitIndex { n with commitIndex := i }
  | claim : Acts n .applyCommittedEntries n.claim
  | apply (e : LogEntry) (rest : List LogEntry) :
      Acts n (.applyLoop (e :: rest)) (n.applyOne e).1
  | store (index : Nat) (result : Bytes) :
      Acts n (.storeResult index result) (n.storeResult index result)
  | vote (req : RequestVoteReq) (majority : Nat) (hterm : req.term = n.log.currentTerm) :
      Acts n (.handleRequestVote req majority) (n.castVote req).1
  | voteLater (req : RequestVoteReq) (majority : Nat) :
      Acts n (.castVote req majority) (n.castVote req).1
  | reject (req : AppendEntriesReq) :
      Acts n (.acceptEntries req) { n with leaderId := req.leaderId }
  | accept (req : AppendEntriesReq) :
      Acts n (.acceptEntries req) (RaftNode.acceptEntries { n with leaderId := req.leaderId } req)
  | install (req : InstallSnapshotReq) : Acts n (.acceptSnapshot req) (n.acceptSnapshot req)
  | compact (idx term : Nat) (bytes : Bytes) :
      Acts n (.compactUpTo idx term bytes) { n with log := n.log.compactUpTo idx term bytes }
  | count (newTerm majority : Nat) (resp : RequestVoteResp) (votes : Nat → Nat) :
      Acts n (.onRequestVoteReply newTerm majority resp) { n with votes }
  | backOff (peer : NodeId) (term : Nat) (resp : AppendEntriesResp)
      (nextIndex : AList fun _ : NodeId => Nat) :
      Acts n (.onAppendEntriesReply peer term resp) { n with nextIndex }
  | matched (peer : NodeId) (term : Nat) (resp : AppendEntriesResp) (i j : Nat) :
      Acts n (.onAppendEntriesReply peer term resp)
        { n with matchIndex := n.matchIndex.insert peer i, nextIndex := n.nextIndex.insert peer j }
  | installed (peer : NodeId) (idx : Nat) (resp : InstallSnapshotResp) (i j : Nat) :
      Acts n (.onInstallSnapshotReply peer idx resp)
        { n with matchIndex := n.matchIndex.insert peer i, nextIndex := n.nextIndex.insert peer j }

/-- Everything a stretch can make of its node. -/
theorem acts (n : RaftNode σ) (k : Stretch) : Acts n k (k.run n).shared := by
  -- a stretch that finds its guard false leaves the node as it is
  cases k with
  | becomeFollower term leader => exact .follow term leader
  -- a node stands in the next term, with its own vote or with none
  | becomeCandidate =>
      obtain ⟨votes, hrun⟩ := run_becomeCandidate n
      rw [hrun]
      exact .stand votes
  | becomeLeader won =>
      dsimp only [run]
      split
      · exact .idle _
      · next hrole => exact .lead won (Decidable.not_not.mp hrole)
  | propose data type =>
      dsimp only [run, append]
      split
      · exact .idle _
      · next hrole => exact .propose data type (Decidable.not_not.mp hrole)
  | proposeChange change seen =>
      dsimp only [run, append]
      split
      · exact .idle _
      · next hrole => exact .change change seen (Decidable.not_not.mp hrole)
  -- only an index above the commit index with a majority is committed
  | tryAdvanceCommitIndex =>
      dsimp only [run]
      split
      · exact .idle _
      · split
        · exact .idle _
        · split
          · exact .commit _
          · exact .idle _
  | applyCommittedEntries => exact .claim
  | applyLoop toApply =>
      cases toApply with
      | nil => exact .idle _
      | cons e rest => exact .apply e rest
  | storeResult index result => exact .store index result
  -- a vote is cast in this section only if the term needs no change
  | handleRequestVote req majority =>
      dsimp only [run]
      split
      · exact .idle _
      · split
        · exact .idle _
        · exact .vote req majority (by omega)
  | castVote req majority => exact .voteLater req majority
  | acceptEntries req =>
      dsimp only [run]
      split
      · exact .reject req
      · exact .accept req
  | acceptSnapshot req =>
      dsimp only [run]
      split
      · exact .idle _
      · exact .install req
  | compactUpTo idx term bytes => exact .compact idx term bytes
  | onRequestVoteReply newTerm majority resp =>
      dsimp only [run]
      split
      · exact .idle _
      · split
        · exact .idle _
        · split
          · -- won or not, the vote is counted
            split <;> exact .count newTerm majority resp _
          · exact .idle _
  | onAppendEntriesReply peer term resp =>
      dsimp only [run]
      split
      · exact .idle _
      · split
        · exact .idle _
        · split
          · exact .matched peer term resp _ _
          · exact .backOff peer term resp _
  | onInstallSnapshotReply peer idx resp =>
      dsimp only [run]
      split
      · exact .idle _
      · exact .installed peer idx resp _ _
  | broadcastAppendEntries | sendAppendEntriesTo | sendInstallSnapshotTo | handleAppendEntries
  | handleInstallSnapshot | maybeSnapshot | forceSnapshot | loadSnapshotBytes | waitApplied
  | linearizableReadBarrier | awaitTarget =>
      dsimp only [run]
      split <;> exact .idle _
  | replicateTo | sendTo | snapshotFor | answerAppended | changeServer | takeSnapshot =>
      exact .idle _

/-! ## Term, vote and role -/

/-- `Moves n k n'`: what the stretch `k` does to the term, the vote and the role
of the node `n`. -/
inductive Moves (n : RaftNode σ) : Stretch → RaftNode σ → Prop
  | stand {n' : RaftNode σ} (hrole : n'.role = .candidate)
      (hterm : n'.log.currentTerm = n.log.currentTerm + 1) (hvote : n'.log.votedFor = n.id) :
      Moves n .becomeCandidate n'
  | follow (term : Nat) (leader : NodeId) :
      Moves n (.becomeFollower term leader) (n.becomeFollower term leader)
  | lead (won : Nat) (hrole : n.role = .candidate) : Moves n (.becomeLeader won) n.lead
  | vote (req : RequestVoteReq) (majority : Nat) (hterm : req.term = n.log.currentTerm) :
      Moves n (.handleRequestVote req majority) (n.castVote req).1
  | voteLater (req : RequestVoteReq) (majority : Nat) :
      Moves n (.castVote req majority) (n.castVote req).1
  | keep {k : Stretch} {n' : RaftNode σ} (hrole : n'.role = n.role)
      (hterm : n'.log.currentTerm = n.log.currentTerm) (hvote : n'.log.votedFor = n.log.votedFor) :
      Moves n k n'

/-- Everything a stretch can do to the term, the vote and the role. -/
theorem moves (n : RaftNode σ) (k : Stretch) : Moves n k (k.run n).shared := by
  have hacts := k.acts n
  generalize (k.run n).shared = n' at hacts
  cases hacts with
  | follow term leader => exact .follow term leader
  | stand => exact .stand rfl rfl rfl
  | lead won hrole => exact .lead won hrole
  | vote req majority hterm => exact .vote req majority hterm
  | voteLater req majority => exact .voteLater req majority
  | propose | change | accept =>
      exact .keep rfl (PersistentLog.appendAndSync_currentTerm _ _)
        (PersistentLog.appendAndSync_votedFor _ _)
  | install | compact =>
      exact .keep rfl (PersistentLog.compactUpTo_currentTerm _ _ _ _)
        (PersistentLog.compactUpTo_votedFor _ _ _ _)
  | apply e =>
      obtain ⟨_, _, _, _, hone⟩ := n.applyOne_eq e
      rw [hone]
      exact .keep rfl rfl rfl
  | idle | commit | claim | store | reject | count | backOff | matched | installed =>
      exact .keep rfl rfl rfl

/-! ## What a stretch hands on -/

/-- The stretch is the start of a handler. -/
def isHandler : Stretch → Bool
  | handleRequestVote .. | handleAppendEntries _ | handleInstallSnapshot _ => true
  | _ => false

/-- The stretch proposes no configuration, unless it computed one. -/
def ProposesNoConfig : Stretch → Prop
  | propose _ type => type ≠ .config
  | _ => True

/-- The stretch may be followed by one that is not plain. -/
def handsOn : Stretch → Bool
  | becomeCandidate | applyCommittedEntries | applyLoop _ | handleRequestVote ..
  | handleAppendEntries _ | handleInstallSnapshot _ | onRequestVoteReply .. | changeServer _
  | forceSnapshot | takeSnapshot ..
    => true
  | _ => false

theorem next_isPlain (n : RaftNode σ) {k : Stretch} (hk : k.handsOn = false) :
    ∀ k' ∈ (k.run n).next, k'.isPlain = true ∧ k'.isHandler = false ∧
      k'.ProposesNoConfig := by
  cases k with
  | becomeFollower | storeResult | snapshotFor | castVote | answerAppended | compactUpTo =>
      exact List.forall_mem_nil _
  | sendAppendEntriesTo | acceptSnapshot =>
      dsimp only [run]
      split <;> exact List.forall_mem_nil _
  | propose | proposeChange =>
      simp only [run, append]
      split
      · exact List.forall_mem_nil _
      · exact List.forall_mem_singleton.mpr ⟨rfl, rfl, trivial⟩
  | replicateTo => exact List.forall_mem_singleton.mpr ⟨rfl, rfl, trivial⟩
  | sendTo =>
      dsimp only [run]
      split <;> exact List.forall_mem_singleton.mpr ⟨rfl, rfl, trivial⟩
  | sendInstallSnapshotTo | awaitTarget =>
      dsimp only [run]
      split
      · exact List.forall_mem_nil _
      · exact List.forall_mem_singleton.mpr ⟨rfl, rfl, trivial⟩
  | onInstallSnapshotReply | maybeSnapshot | loadSnapshotBytes | waitApplied =>
      dsimp only [run]
      split
      · exact List.forall_mem_singleton.mpr ⟨rfl, rfl, trivial⟩
      · exact List.forall_mem_nil _
  | acceptEntries | linearizableReadBarrier =>
      dsimp only [run]
      split
      · exact List.forall_mem_nil _
      · exact List.forall_mem_cons.mpr
          ⟨⟨rfl, rfl, trivial⟩, List.forall_mem_singleton.mpr ⟨rfl, rfl, trivial⟩⟩
  -- a new leader proposes, broadcasts and advances
  | becomeLeader =>
      dsimp only [run]
      split
      · exact List.forall_mem_nil _
      · -- the entry of a new leader is a no-op
        exact List.forall_mem_cons.mpr ⟨⟨rfl, rfl, EntryType.noConfusion⟩,
          List.forall_mem_cons.mpr
            ⟨⟨rfl, rfl, trivial⟩, List.forall_mem_singleton.mpr ⟨rfl, rfl, trivial⟩⟩⟩
  | broadcastAppendEntries =>
      dsimp only [run]
      split
      · exact List.forall_mem_nil _
      · intro k' hk'
        obtain ⟨peer, -, rfl⟩ := List.mem_map.mp hk'
        exact ⟨rfl, rfl, trivial⟩
  | tryAdvanceCommitIndex =>
      dsimp only [run]
      split
      · exact List.forall_mem_nil _
      · split
        · exact List.forall_mem_nil _
        · split
          · exact List.forall_mem_singleton.mpr ⟨rfl, rfl, trivial⟩
          · exact List.forall_mem_nil _
  | onAppendEntriesReply =>
      dsimp only [run]
      split
      · exact List.forall_mem_singleton.mpr ⟨rfl, rfl, trivial⟩
      · split
        · exact List.forall_mem_nil _
        · split
          · exact List.forall_mem_singleton.mpr ⟨rfl, rfl, trivial⟩
          · exact List.forall_mem_nil _
  | becomeCandidate | applyCommittedEntries | applyLoop | handleRequestVote | handleAppendEntries
  | handleInstallSnapshot | onRequestVoteReply | changeServer | forceSnapshot | takeSnapshot =>
      contradiction

/-- `Follows n k k'`: a thread that ran the stretch `k` in the node `n` has `k'`
ahead of it. -/
inductive Follows (n : RaftNode σ) : Stretch → Stretch → Prop
  | plain {k k' : Stretch} (hplain : k'.isPlain = true) (hhandler : k'.isHandler = false)
      (hconfig : k'.ProposesNoConfig) : Follows n k k'
  | lead {k : Stretch} {won : Nat} (hterm : (k.run n).shared.log.currentTerm = won) :
      Follows n k (.becomeLeader won)
  | claim : Follows n .applyCommittedEntries (.applyLoop n.toApply)
  | result (e : LogEntry) (rest : List LogEntry) :
      Follows n (.applyLoop (e :: rest)) (.storeResult e.index (n.applyOne e).2)
  | rest (e : LogEntry) (rest : List LogEntry) :
      Follows n (.applyLoop (e :: rest)) (.applyLoop rest)
  | vote (req : RequestVoteReq) (majority : Nat) :
      Follows n (.handleRequestVote req majority) (.castVote req majority)
  | accept (req : AppendEntriesReq) : Follows n (.handleAppendEntries req) (.acceptEntries req)
  | install (req : InstallSnapshotReq) :
      Follows n (.handleInstallSnapshot req) (.acceptSnapshot req)
  | change (change : Change) : Follows n (.changeServer change) (.proposeChange change n.config)
  | snapshot : Follows n .forceSnapshot (.takeSnapshot n.lastApplied (n.log.termAt n.lastApplied))
  | compact (idx term : Nat) :
      Follows n (.takeSnapshot idx term) (.compactUpTo idx term (StateMachine.snapshot n.sm))

/-- Everything a stretch can hand on. -/
theorem next_follows {n : RaftNode σ} {k k' : Stretch} (h : k' ∈ (k.run n).next) :
    Follows n k k' := by
  cases k with
  | becomeCandidate =>
      have hrun : (Stretch.run n .becomeCandidate).shared.log.currentTerm =
          n.stand.log.currentTerm := by
        dsimp only [run]
        split
        · rfl
        · split <;> rfl
      simp only [run] at h
      split at h
      · simp at h
      · -- a single voter leads in the term it has just begun
        split at h
        · obtain rfl := List.mem_singleton.mp h
          exact .lead hrun
        · simp at h
  | onRequestVoteReply newTerm majority resp =>
      have hrun : (run n (.onRequestVoteReply newTerm majority resp)).shared.log = n.log := by
        dsimp only [run]
        repeat' split
        all_goals rfl
      simp only [run] at h
      -- the callback goes on to lead only behind its check that the term is still its own
      split at h
      · simp at h
      · next hrole =>
        rw [not_or, Decidable.not_not, Decidable.not_not] at hrole
        split at h
        · obtain rfl := List.mem_singleton.mp h
          exact .plain rfl rfl trivial
        · split at h
          · split at h
            · obtain rfl := List.mem_singleton.mp h
              exact .lead (by rw [hrun, hrole.2])
            · simp at h
          · simp at h
  | applyCommittedEntries =>
      obtain rfl := List.mem_singleton.mp h
      exact .claim
  | applyLoop toApply =>
      cases toApply with
      | nil => exact absurd h List.not_mem_nil
      | cons e rest =>
          rcases List.mem_pair.mp h with rfl | rfl
          · exact .result e rest
          · exact .rest e rest
  | handleRequestVote req majority =>
      simp only [run] at h
      split at h
      · simp at h
      · split at h
        · -- the term is taken over first, and the vote is cast behind it
          rcases List.mem_pair.mp h with rfl | rfl
          · exact .plain rfl rfl trivial
          · exact .vote req majority
        · simp at h
  | handleAppendEntries req =>
      simp only [run] at h
      split at h
      · simp at h
      · rcases List.mem_pair.mp h with rfl | rfl
        · exact .plain rfl rfl trivial
        · exact .accept req
  | handleInstallSnapshot req =>
      simp only [run] at h
      split at h
      · simp at h
      · rcases List.mem_pair.mp h with rfl | rfl
        · exact .plain rfl rfl trivial
        · exact .install req
  | changeServer change =>
      obtain rfl := List.mem_singleton.mp h
      exact .change change
  | forceSnapshot =>
      simp only [run] at h
      split at h
      · simp at h
      · obtain rfl := List.mem_singleton.mp h
        exact .snapshot
  | takeSnapshot idx term =>
      obtain rfl := List.mem_singleton.mp h
      exact .compact idx term
  | _ =>
      obtain ⟨hplain, hhandler, hconfig⟩ := next_isPlain n rfl k' h
      exact .plain hplain hhandler hconfig

/-! ## The log and what was applied -/

/-- `Does h n k h' n' w`: in a node `n` with history `h` the stretch `k` leaves
the node `n'` and the history `h'`, and its thread with the work `w`. -/
inductive Does (h : History σ) (n : RaftNode σ) :
    Stretch → History σ → RaftNode σ → List LogEntry → Prop
  | keep {k : Stretch} {h' : History σ} {n' : RaftNode σ} (hk : k.work = [])
      (hsame : h.SameApplied h') (hdata : SameData n n') :
      Does h n k h' n' []
  | append {k : Stretch} {h' : History σ} (data : Bytes) (type : EntryType) (hk : k.work = [])
      (hsame : h.SameApplied h') :
      Does h n k h' { n with log := n.log.appendAndSync [n.newEntry data type] } []
  | accept (req : AppendEntriesReq) (hcheck : RaftNode.consistencyCheck n.log req = none) :
      Does h n (.acceptEntries req) h
        (RaftNode.acceptEntries { n with leaderId := req.leaderId } req) []
  | install (req : InstallSnapshotReq) (hgt : n.log.snapshotIndex < req.lastIncludedIndex) :
      Does h n (.acceptSnapshot req)
        { h with since := [], base := req.lastIncludedIndex,
                 covered := max h.covered req.lastIncludedIndex } (n.acceptSnapshot req) []
  | compact (idx term : Nat) (bytes : Bytes) :
      Does h n (.compactUpTo idx term bytes) h
        { n with log := n.log.compactUpTo idx term bytes } []
  | claim : Does h n .applyCommittedEntries h n.claim n.toApply
  | apply (e : LogEntry) (rest : List LogEntry) :
      Does h n (.applyLoop (e :: rest))
        { h with life := h.life ++ [⟨e, n.sm⟩], since := h.since ++ [⟨e, n.sm⟩] }
        (n.applyOne e).1 rest
  | store (index : Nat) (result : Bytes) :
      Does h n (.storeResult index result) h (n.storeResult index result) []

/-- The stretch replaces or cuts the log, or has to do with entries that are applied. -/
def reachesApplied : Stretch → Bool
  | applyCommittedEntries | applyLoop _ | storeResult .. | acceptEntries _ | acceptSnapshot _
  | compactUpTo .. => true
  | _ => false

omit [StateMachine σ] in
/-- The others may only add a term or a change to the history. -/
theorem sameApplied_after (h : History σ) (n : RaftNode σ) {k : Stretch}
    (hk : k.reachesApplied = false) : h.SameApplied (h.after n k) := by
  cases k with
  | becomeCandidate => exact ⟨rfl, rfl, rfl, rfl⟩
  | proposeChange change seen =>
      simp only [History.after]
      split
      · exact .refl h
      · exact ⟨rfl, rfl, rfl, rfl⟩
  | applyCommittedEntries | applyLoop | storeResult | acceptEntries | acceptSnapshot
  | compactUpTo => contradiction
  | _ => exact .refl h

/-- Only claiming entries leaves a thread with work it did not have before. -/
theorem next_work (n : RaftNode σ) {k : Stretch} (hk : k.work = [])
    (hclaim : k ≠ .applyCommittedEntries) : (k.run n).next.flatMap work = [] := by
  refine List.flatMap_eq_nil_iff.mpr fun k' hk' => ?_
  cases next_follows hk' with
  | plain hplain => exact work_of_isPlain hplain
  | claim => exact absurd rfl hclaim
  | rest => cases hk
  | lead | result | vote | accept | install | change | snapshot | compact => rfl

theorem Acts.does {h h' : History σ} {n n' : RaftNode σ} {k : Stretch} (hacts : Acts n k n')
    (hk : k.reachesApplied = false) (hwork : k.work = []) (hsame : h.SameApplied h') :
    Does h n k h' n' [] := by
  cases hacts with
  | propose | change => exact .append _ _ hwork hsame
  | follow term leader => exact .keep hwork hsame (.becomeFollower n term leader)
  | stand => exact .keep hwork hsame (.setHardState n (Nat.le_succ _) _ _ _ _)
  | vote req | voteLater req => exact .keep hwork hsame (.castVote n req)
  | idle | lead | commit | count | backOff | matched | installed =>
      exact .keep hwork hsame (.volatile n _ _ _ _ _ _)
  | claim | apply | store | reject | accept | install | compact => contradiction

/-- Everything a stretch can do to the log and to what was applied. -/
theorem does (h : History σ) (n : RaftNode σ) (k : Stretch) :
    Does h n k (h.after n k) (k.run n).shared ((k.run n).next.flatMap work) := by
  -- apart from the sections that touch what is applied, the history stays
  cases hk : k.reachesApplied with
  | false =>
      have hplain : k.work = [] ∧ k ≠ .applyCommittedEntries := by
        constructor
        · cases k <;> first | rfl | contradiction
        · rintro rfl
          contradiction
      rw [next_work n hplain.1 hplain.2]
      exact (k.acts n).does hk hplain.1 (sameApplied_after h n hk)
  | true =>
      cases k with
      -- the batch is handed to the loop
      | applyCommittedEntries =>
          have hnext : [Stretch.applyLoop n.toApply].flatMap work = n.toApply := List.append_nil _
          simp only [run, hnext]
          exact .claim
      | applyLoop toApply =>
          cases toApply with
          | nil => exact .keep rfl (.refl h) (.volatile n _ _ _ _ _ _)
          -- one entry less to apply, and its result still to store
          | cons e rest =>
              have hnext : [Stretch.storeResult e.index (n.applyOne e).2, .applyLoop rest].flatMap
                  work = rest := List.append_nil _
              simp only [run, hnext]
              exact .apply e rest
      | storeResult index result => exact .store index result
      | acceptEntries req =>
          dsimp only [run]
          split
          · exact .keep rfl (.refl h) (.volatile n _ _ _ _ _ _)
          · next hcheck => exact .accept req hcheck
      | acceptSnapshot req =>
          -- the history notes a snapshot only if it is installed
          simp only [run, History.after]
          split
          · exact .keep rfl (.refl h) (.volatile n _ _ _ _ _ _)
          · next hgt => exact .install req (Nat.lt_of_not_le hgt)
      | compactUpTo idx term bytes => exact .compact idx term bytes
      | _ => contradiction

/-- The files stay up to date. -/
theorem run_synced {n : RaftNode σ} (h : n.log.Synced) (h' : History σ) (k : Stretch) :
    (k.run n).shared.log.Synced := by
  have hdoes := k.does h' n
  generalize h'.after n k = h'', (k.run n).shared = n', (k.run n).next.flatMap work = w at hdoes
  cases hdoes with
  | keep _ _ hdata => exact hdata.synced h
  | append => exact h.appendAndSync _
  | accept req => exact h.appendAndSync _
  | install | compact => exact h.compactUpTo _ _ _
  | claim | store => exact h
  | apply e =>
      obtain ⟨_, _, _, _, hone⟩ := n.applyOne_eq e
      rw [hone]
      exact h

theorem run_id (n : RaftNode σ) (h' : History σ) (k : Stretch) : (k.run n).shared.id = n.id := by
  have hdoes := k.does h' n
  generalize h'.after n k = h'', (k.run n).shared = n', (k.run n).next.flatMap work = w at hdoes
  cases hdoes with
  | keep _ _ hdata => exact hdata.id
  | append | accept | install | compact | claim | store => rfl
  | apply e =>
      obtain ⟨_, _, _, _, hone⟩ := n.applyOne_eq e
      rw [hone]

/-! ## What a stretch emits -/

end Stretch

/-- The output carries neither entries nor a snapshot, nor is it an answer to a
candidate or the end of a wait. -/
def Output.isPlain : Output → Bool
  | .call ⟨_, _, _, .appendEntries _⟩ | .call ⟨_, _, _, .installSnapshot _⟩
  | .answer (.requestVote ..) | .applied .. | .readable _ => false
  | _ => true

namespace Stretch

/-- The stretch may emit an output that is not plain. -/
def emits : Stretch → Bool
  | sendAppendEntriesTo _ | loadSnapshotBytes .. | snapshotFor .. | handleRequestVote ..
  | castVote .. | waitApplied _ | awaitTarget _ => true
  | _ => false

theorem out_isPlain (n : RaftNode σ) {k : Stretch} (hk : k.emits = false) :
    ∀ o ∈ (k.run n).out, o.isPlain = true := by
  cases k with
  | becomeFollower | applyCommittedEntries | storeResult | replicateTo | sendTo | changeServer
  | takeSnapshot | compactUpTo =>
      exact List.forall_mem_nil _
  | becomeLeader | broadcastAppendEntries | sendInstallSnapshotTo | onInstallSnapshotReply
  | maybeSnapshot | forceSnapshot | linearizableReadBarrier =>
      dsimp only [run]
      split <;> exact List.forall_mem_nil _
  | propose | proposeChange =>
      simp only [run, append]
      split <;> exact List.forall_mem_nil _
  | applyLoop toApply => cases toApply <;> exact List.forall_mem_nil _
  | tryAdvanceCommitIndex | onAppendEntriesReply =>
      dsimp only [run]
      split
      · exact List.forall_mem_nil _
      · split
        · exact List.forall_mem_nil _
        · split <;> exact List.forall_mem_nil _
  | onRequestVoteReply =>
      dsimp only [run]
      split
      · exact List.forall_mem_nil _
      · split
        · exact List.forall_mem_nil _
        · split
          · split <;> exact List.forall_mem_nil _
          · exact List.forall_mem_nil _
  | becomeCandidate =>
      dsimp only [run]
      split
      · exact List.forall_mem_nil _
      · split
        · exact List.forall_mem_nil _
        · intro o ho
          obtain ⟨peer, -, rfl⟩ := List.mem_map.mp ho
          rfl
  | handleAppendEntries | acceptEntries | handleInstallSnapshot =>
      dsimp only [run]
      split
      · exact List.forall_mem_singleton.mpr rfl
      · exact List.forall_mem_nil _
  | acceptSnapshot =>
      dsimp only [run]
      split <;> exact List.forall_mem_singleton.mpr rfl
  | answerAppended => exact List.forall_mem_singleton.mpr rfl
  -- these are the sections whose answers say something about the node
  | sendAppendEntriesTo | loadSnapshotBytes | snapshotFor | handleRequestVote | castVote
  | waitApplied | awaitTarget => contradiction

/-- `Sends n k o`: the stretch `k` emits `o` in the node `n`. -/
inductive Sends (n : RaftNode σ) : Stretch → Output → Prop
  | plain {k : Stretch} {o : Output} (hplain : o.isPlain = true) : Sends n k o
  | entries (peer : NodeId) :
      Sends n (.sendAppendEntriesTo peer)
        (.call ⟨n.id, peer, n.incarnation, .appendEntries (n.appendEntriesReq peer)⟩)
  | stored (peer : NodeId) (term idx snapTerm : Nat) {bytes : Bytes}
      (hload : n.log.loadSnapshotBytes = some bytes) :
      Sends n (.loadSnapshotBytes peer term idx snapTerm)
        (.call ⟨n.id, peer, n.incarnation, .installSnapshot ⟨term, n.id, idx, snapTerm, bytes⟩⟩)
  | taken (peer : NodeId) (term idx snapTerm : Nat) :
      Sends n (.snapshotFor peer term idx snapTerm)
        (.call ⟨n.id, peer, n.incarnation,
          .installSnapshot ⟨term, n.id, idx, snapTerm, StateMachine.snapshot n.sm⟩⟩)
  | refuse (req : RequestVoteReq) (majority : Nat) :
      Sends n (.handleRequestVote req majority)
        (.answer (.requestVote req majority ⟨n.log.currentTerm, false⟩))
  | vote {k : Stretch} (req : RequestVoteReq) (majority : Nat)
      (hk : k = .handleRequestVote req majority ∨ k = .castVote req majority)
      (hrun : (k.run n).shared = (n.castVote req).1) :
      Sends n k (.answer (.requestVote req majority (n.castVote req).2))
  | applied (index : Nat) {result : Bytes} (hwait : n.waitApplied index = some result) :
      Sends n (.waitApplied index) (.applied index result)
  | readable {target : Nat} (hreached : target ≤ n.lastApplied) :
      Sends n (.awaitTarget target) (.readable target)

/-- Everything a stretch can emit. -/
theorem out_sends {n : RaftNode σ} {k : Stretch} {o : Output} (h : o ∈ (k.run n).out) :
    Sends n k o := by
  cases k with
  | sendAppendEntriesTo peer =>
      simp only [run] at h
      split at h
      · simp at h
      · obtain rfl := List.mem_singleton.mp h
        exact .entries peer
  | loadSnapshotBytes peer term idx snapTerm =>
      simp only [run] at h
      split at h
      · simp at h
      · next hload =>
        obtain rfl := List.mem_singleton.mp h
        exact .stored peer term idx snapTerm hload
  | snapshotFor peer term idx snapTerm =>
      obtain rfl := List.mem_singleton.mp h
      exact .taken peer term idx snapTerm
  | handleRequestVote req majority =>
      simp only [run] at h
      split at h
      · obtain rfl := List.mem_singleton.mp h
        exact .refuse req majority
      · next hlt =>
        split at h
        · -- within the term the vote is decided at once
          simp at h
        · next hgt =>
          obtain rfl := List.mem_singleton.mp h
          refine .vote req majority (.inl rfl) ?_
          simp only [run, if_neg hlt, if_neg hgt]
  | castVote req majority =>
      obtain rfl := List.mem_singleton.mp h
      exact .vote req majority (.inr rfl) rfl
  | waitApplied index =>
      simp only [run] at h
      split at h
      · simp at h
      · next hwait =>
        obtain rfl := List.mem_singleton.mp h
        exact .applied index hwait
  | awaitTarget target =>
      simp only [run] at h
      split at h
      · next hreached =>
        obtain rfl := List.mem_singleton.mp h
        exact .readable hreached
      · simp at h
  | _ => exact .plain (out_isPlain n rfl o h)

end Stretch

end KvRaft
