import KvRaft.Refine.Callbacks

/-!
# KvRaft.Refine.Cluster

The cluster as a whole refines the replicated-log protocol.

* `Sim` — the relation between a cluster and a state of the protocol: every
  node and every message means what `KvRaft.Refine.Relation` says, and every
  vote on its way is counted at most once;
* `Sim.step` — every step a run may take is followed by the protocol;
* `Sim.run` — and so is every run.

A run may take a step if it is `Followed`, which depends on the scope.
-/

namespace KvRaft

open Replica

variable {σ : Type} {k : Scope} {voters : List NodeId} {s s' : Ghost} {n : NodeId}
  {nd nd' : RaftNode σ} {c c' : Cluster σ} {a : Action}

/-! ## The steps that are followed -/

/-- Handling `rpc` keeps the entries it agrees with. -/
def RaftNode.SafeRpc (nd : RaftNode σ) : Rpc → Prop
  | .appendEntries req => nd.SafeAppend req
  | _ => True

instance (nd : RaftNode σ) : (rpc : Rpc) → Decidable (nd.SafeRpc rpc)
  | .appendEntries req => inferInstanceAs (Decidable (nd.SafeAppend req))
  | .requestVote .. => isTrue trivial
  | .installSnapshot _ => isTrue trivial

namespace Cluster

/-- The call that is delivered, if any, keeps the entries it agrees with. -/
def SafeDelivery (c : Cluster σ) (a : Action) : Prop :=
  ∀ call ∈ c.delivered a, (c.nodes call.target).SafeRpc call.rpc

instance (c : Cluster σ) (a : Action) : Decidable (c.SafeDelivery a) :=
  inferInstanceAs (Decidable (∀ call ∈ c.delivered a, _))

/-- The step is one the protocol follows. -/
structure Followed (k : Scope) (c : Cluster σ) (a : Action) : Prop where
  steady : c.Steady a
  whole : k = .logs → c.NoSnapshots a
  safe : k = .commits → c.SafeDelivery a

theorem Followed.logs {c : Cluster σ} {a : Action} (hsteady : c.Steady a)
    (hwhole : c.NoSnapshots a) : c.Followed .logs a := ⟨hsteady, fun _ => hwhole, nofun⟩

theorem Followed.commits {c : Cluster σ} {a : Action} (hsteady : c.Steady a)
    (hsafe : c.SafeDelivery a) : c.Followed .commits a := ⟨hsteady, nofun, fun _ => hsafe⟩

/-- The votes that are asked for or answered and not yet counted. -/
def pendingVotes (c : Cluster σ) : List (NodeId × NodeId × Nat) :=
  c.calls.filterMap Call.voteKey ++ c.replies.filterMap Reply.voteKey

end Cluster

/-! ## The relation -/

/-- The cluster stands as the protocol says. -/
structure Sim (k : Scope) (voters : List NodeId) (c : Cluster σ) (s : Ghost) : Prop where
  members : ∀ n ∈ c.members, n ≠ 0
  global : Global k voters s
  node : ∀ n, NodeInv k voters s n (c.nodes n)
  calls : ∀ call ∈ c.calls, CallInv k voters s call
  copies : ∀ call ∈ c.copies, CallInv k voters s call
  replies : ∀ r ∈ c.replies, ReplyInv k voters s r
  once : c.pendingVotes.Nodup
  uncounted : ∀ key ∈ c.pendingVotes, key.2.1 ∉ s.tally key.1 key.2.2

/-- A vote that is not among those a move counts stays uncounted. -/
theorem Moves.uncounted {counted : NodeId → Nat → Prop} (h : Moves n counted s s')
    {key : NodeId × NodeId × Nat} (hkey : key.2.1 ∉ s.tally key.1 key.2.2)
    (hnot : key.1 = n → ¬ counted key.2.1 key.2.2) : key.2.1 ∉ s'.tally key.1 key.2.2 := by
  intro hmem
  by_cases hn : key.1 = n
  · rw [hn] at hmem hkey
    exact (h.tally _ _ hmem).elim hkey (hnot hn)
  · rw [(h.same _ hn).tally] at hmem
    exact hkey hmem

/-- The element at a place and the rest are the list again. -/
theorem perm_cons_eraseIdx {α : Type} {l : List α} {i : Nat} {x : α} (h : l[i]? = some x) :
    (x :: l.eraseIdx i).Perm l := by
  obtain ⟨hi, rfl⟩ := List.getElem?_eq_some_iff.mp h
  exact List.getElem_cons_eraseIdx_perm hi

namespace Sim

theorem tracks (h : Sim k voters c s) (n : NodeId) : Tracks k voters s n (c.nodes n) :=
  ⟨h.global, h.node n⟩

/-- A pending vote is asked for in a term its candidate has reached. -/
theorem pending_le (h : Sim k voters c s) {key : NodeId × NodeId × Nat}
    (hkey : key ∈ c.pendingVotes) : key.2.2 ≤ s.term key.1 := by
  have hE := h.global.elections
  rcases List.mem_append.mp hkey with hkey | hkey
  · -- a request still under way: its candidate stood for that term
    obtain ⟨call, hcall, hk⟩ := List.mem_filterMap.mp hkey
    have hinv := h.calls call hcall
    unfold Call.voteKey at hk
    unfold CallInv at hinv
    split at hk
    · next req _ hrpc =>
      rw [hrpc] at hinv
      cases hk
      exact hE.stood_le _ _ _ hinv.stood
    · contradiction
  · -- an answer still under way: its request was such a call
    obtain ⟨r, hr, hk⟩ := List.mem_filterMap.mp hkey
    have hinv := h.replies r hr
    unfold Reply.voteKey at hk
    unfold ReplyInv at hinv
    split at hk
    · next req _ _ hans =>
      rw [hans] at hinv
      cases hk
      exact hE.stood_le _ _ _ hinv.1.stood
    · contradiction

/-- One node moves, and the messages on their way are old ones or mean what
the protocol says after the move. -/
theorem update (h : Sim k voters c s) {counted : NodeId → Nat → Prop}
    (hmv : Moves n counted s s') (ht : Tracks k voters s' n nd')
    (hmembers : c'.members = c.members) (hnodes : c'.nodes = Function.update c.nodes n nd')
    (hcalls : ∀ call ∈ c'.calls, call ∈ c.calls ∨ CallInv k voters s' call)
    (hcopies : c'.copies = c.copies)
    (hreplies : ∀ r ∈ c'.replies, r ∈ c.replies ∨ ReplyInv k voters s' r)
    (honce : c'.pendingVotes.Nodup)
    (huncounted : ∀ key ∈ c'.pendingVotes, key.2.1 ∉ s'.tally key.1 key.2.2) :
    Sim k voters c' s' where
  members := by rw [hmembers]; exact h.members
  global := ht.global
  node := fun m => by
    rw [hnodes]
    by_cases hm : m = n
    · subst hm
      rw [Function.update_self]
      exact ht.node
    · rw [Function.update_of_ne hm]
      exact (h.node m).mono hmv.ext (hmv.same m hm)
  calls := fun call hc => (hcalls call hc).elim
    (fun hold => (h.calls call hold).mono h.global.elections hmv.ext) id
  copies := fun call hc =>
    (h.copies call (hcopies ▸ hc)).mono h.global.elections hmv.ext
  replies := fun r hr => (hreplies r hr).elim
    (fun hold => (h.replies r hold).mono h.global.elections hmv.ext) id
  once := honce
  uncounted := huncounted

/-- As `update`, for a move that counts no vote and asks for none. -/
theorem quiet (h : Sim k voters c s) (hmv : Moves n noVote s s') (ht : Tracks k voters s' n nd')
    (hmembers : c'.members = c.members) (hnodes : c'.nodes = Function.update c.nodes n nd')
    (hcalls : ∀ call ∈ c'.calls, call ∈ c.calls ∨ CallInv k voters s' call)
    (hcopies : c'.copies = c.copies)
    (hreplies : ∀ r ∈ c'.replies, r ∈ c.replies ∨ ReplyInv k voters s' r)
    (hpending : c'.pendingVotes.Subperm c.pendingVotes) : Sim k voters c' s' := by
  obtain ⟨l, hperm, hsub⟩ := hpending
  refine h.update hmv ht hmembers hnodes hcalls hcopies hreplies
    (hperm.nodup_iff.mp (h.once.sublist hsub)) fun key hkey => ?_
  exact hmv.uncounted (h.uncounted key (hsub.subset (hperm.mem_iff.mpr hkey))) fun _ => id

/-! ## Steps of one node on its own -/

/-- The node sends `sent`, none of which asks for a vote. -/
theorem put (h : Sim k voters c s) (hmv : Moves n noVote s s') (ht : Tracks k voters s' n nd')
    {sent : List Call} (hsent : ∀ call ∈ sent, CallInv k voters s' call ∧ call.voteKey = none) :
    Sim k voters (c.put n nd' sent) s' := by
  have hnone : sent.filterMap Call.voteKey = [] :=
    List.filterMap_eq_nil_iff.mpr fun call hc => (hsent call hc).2
  have hpending : (c.put n nd' sent).pendingVotes = c.pendingVotes := by
    simp only [Cluster.pendingVotes, Cluster.put, List.filterMap_append, hnone, List.append_nil]
  exact h.quiet hmv ht rfl rfl
    (fun call hc => (List.mem_append.mp hc).imp_right fun hs => (hsent call hs).1) rfl
    (fun _ hr => .inl hr) (hpending ▸ .refl _)

variable [StateMachine σ]

/-- A node stands for election: the votes it asks for are new. -/
theorem timeout (h : Sim k voters c s) (hvoters : voters.Nodup) (hsome : voters ≠ [])
    (hn : n ∈ c.members) :
    ∃ s', Extends s s' ∧
      Sim k voters (c.put n (c.nodes n).becomeCandidate.1 (c.nodes n).becomeCandidate.2) s' := by
  obtain ⟨s', hmv, ht, hcalls, hnodup, hkeys⟩ :=
    (h.tracks n).becomeCandidate (h.members n hn) hvoters hsome
  set sent := (c.nodes n).becomeCandidate.2
  have hperm : (c.put n (c.nodes n).becomeCandidate.1 sent).pendingVotes.Perm
      (sent.filterMap Call.voteKey ++ c.pendingVotes) := by
    simp only [Cluster.pendingVotes, Cluster.put, List.filterMap_append, ← List.append_assoc]
    exact List.Perm.append_right _ List.perm_append_comm
  refine ⟨s', hmv.ext, h.update hmv ht rfl rfl
    (fun call hc => (List.mem_append.mp hc).imp_right (hcalls call)) rfl (fun _ hr => .inl hr)
    (hperm.nodup_iff.mpr ?_) fun key hkey => ?_⟩
  · -- a vote pending before was asked for in an older term
    refine List.nodup_append.mpr ⟨hnodup, h.once, fun key hkey key' hkey' heq => ?_⟩
    obtain ⟨hkn, hkt, -⟩ := hkeys key hkey
    have hle := h.pending_le hkey'
    rw [← heq, hkn, hkt] at hle
    omega
  · -- votes asked for just now and before alike are not in the new tally
    rcases List.mem_append.mp (hperm.mem_iff.mp hkey) with hnew | hold
    · obtain ⟨hkn, hkt, hnot⟩ := hkeys key hnew
      rw [hkn, hkt]
      exact hnot
    · -- and the tallies of other terms are what they were
      refine hmv.uncounted (h.uncounted key hold) fun hkn hkt => ?_
      have hle := h.pending_le hold
      rw [hkn] at hle
      omega

/-- Every step of one node on its own is followed. -/
theorem ownStep (h : Sim k voters c s) (hvoters : voters.Nodup) (hsome : voters ≠ [])
    (hok : c.Followed k a) {sent : List Call} (hown : c.ownStep a = some (n, nd, sent))
    (hn : n ∈ c.members) : ∃ s', Extends s s' ∧ Sim k voters (c.put n nd sent) s' := by
  have hstill : ∀ m, Moves m noVote s s := fun m => .refl m _ s
  cases a with
  | timeout m =>
      simp only [Cluster.ownStep] at hown
      split at hown
      · contradiction
      · simp only [Option.some.injEq, Prod.mk.injEq] at hown
        obtain ⟨rfl, hout⟩ := hown
        have hstood := h.timeout hvoters hsome hn
        rwa [hout] at hstood
  | heartbeat m =>
      cases hown
      exact ⟨s, .refl s, h.put (hstill n) (h.tracks n) (h.tracks n).broadcast⟩
  | propose m commandBytes =>
      cases hown
      obtain ⟨s', hmv, ht⟩ := (h.tracks n).propose commandBytes .command (by simp)
      exact ⟨s', hmv.ext, h.put hmv ht (by simp)⟩
  -- the condition excludes both changes of the configuration
  | addServer =>
      exact absurd hok.steady.1 (by simp [Cluster.FixedMembership, Action.changesMembership])
  | removeServer =>
      exact absurd hok.steady.1 (by simp [Cluster.FixedMembership, Action.changesMembership])
  | readBarrier m =>
      cases hown
      exact ⟨s, .refl s, h.put (hstill n) (h.tracks n) (h.tracks n).broadcast⟩
  | forceSnapshot m =>
      cases hown
      -- a snapshot is allowed only where the log need not stay whole
      have hk : k ≠ .logs := fun hk => nomatch hok.whole hk
      exact ⟨s, .refl s, h.put (hstill n) ((h.tracks n).forceSnapshot hk) (by simp)⟩
  | maybeSnapshot m =>
      cases hown
      have hk : k ≠ .logs := fun hk => nomatch hok.whole hk
      exact ⟨s, .refl s, h.put (hstill n) ((h.tracks n).maybeSnapshot hk) (by simp)⟩
  | restart m =>
      cases hown
      exact ⟨s, .refl s, h.put (hstill n) (h.tracks n).restart (by simp)⟩
  | deliver | copy | copySilent | redeliver | reply => contradiction

/-! ## Messages -/

/-- A handler keeps the relation and answers as the protocol says; the vote
that was asked for stays pending. -/
theorem handle (h : Sim k voters c s) {call : Call} (hcall : CallInv k voters s call)
    (hsafe : k = .commits → (c.nodes call.target).SafeRpc call.rpc) :
    ∃ s', Moves call.target noVote s s' ∧
      Tracks k voters s' call.target ((c.nodes call.target).handle call.rpc).1 ∧
      let r : Reply := ⟨call.sender, call.target, call.incarnation,
        ((c.nodes call.target).handle call.rpc).2⟩
      ReplyInv k voters s' r ∧ r.voteKey = call.voteKey := by
  obtain ⟨sender, target, incarnation, rpc⟩ := call
  have hE := h.global.elections
  cases rpc with
  | requestVote req majority =>
      obtain ⟨s', hmv, ht, hgrant⟩ := (h.tracks target).handleRequestVote hcall
      exact ⟨s', hmv, ht, ⟨VoteCall.mono hE hmv.ext hcall, hgrant⟩, rfl⟩
  | appendEntries req =>
      obtain ⟨s', hmv, ht, hmatch⟩ := (h.tracks target).handleAppendEntries hcall hsafe
      exact ⟨s', hmv, ht, ⟨(AppendCall.mono hmv.ext hcall).sent, hmatch⟩, rfl⟩
  | installSnapshot req =>
      obtain ⟨s', hmv, ht⟩ := (h.tracks target).handleInstallSnapshot hcall
      exact ⟨s', hmv, ht, SnapshotCall.mono hmv.ext hcall, rfl⟩

/-- A call is handled and its answer is on its way. -/
theorem receive (h : Sim k voters c s) {i : Nat} {call : Call} (hcall : c.calls[i]? = some call)
    (hsafe : k = .commits → (c.nodes call.target).SafeRpc call.rpc) :
    ∃ s', Extends s s' ∧ Sim k voters (c.receive call (c.calls.eraseIdx i)) s' := by
  obtain ⟨s', hmv, ht, hreply, hkey⟩ := h.handle (h.calls call (List.mem_of_getElem? hcall)) hsafe
  refine ⟨s', hmv.ext, h.quiet hmv ht rfl rfl (fun x hx => .inl (List.mem_of_mem_eraseIdx hx)) rfl
    (fun r hr => ?_) ?_⟩
  · rcases List.mem_append.mp hr with hr | hr
    · exact .inl hr
    · rw [List.mem_singleton] at hr
      exact .inr (hr ▸ hreply)
  · -- the answer carries the vote the call asked for
    have hone : ∀ r : Reply, [r].filterMap Reply.voteKey = r.voteKey.toList := fun r => by
      cases hr : r.voteKey <;> simp [hr]
    have hcalls : (call.voteKey.toList ++ (c.calls.eraseIdx i).filterMap Call.voteKey).Perm
        (c.calls.filterMap Call.voteKey) := by
      refine .trans (.of_eq ?_) ((perm_cons_eraseIdx hcall).filterMap _)
      cases hk : call.voteKey <;> simp [hk]
    simp only [Cluster.pendingVotes, Cluster.receive, List.filterMap_append, hone]
    rw [hkey, ← List.append_assoc]
    refine (List.perm_append_comm.trans ?_).subperm
    rw [← List.append_assoc]
    exact hcalls.append_right _

/-- A copy is handled and its answer lost. -/
theorem rehandle (h : Sim k voters c s) {call : Call} (hmem : call ∈ c.copies)
    (hsafe : k = .commits → (c.nodes call.target).SafeRpc call.rpc) :
    ∃ s', Extends s s' ∧ Sim k voters (c.rehandle call) s' := by
  obtain ⟨s', hmv, ht, -⟩ := h.handle (h.copies call hmem) hsafe
  exact ⟨s', hmv.ext, h.quiet hmv ht rfl rfl (fun _ hc => .inl hc) rfl (fun _ hr => .inl hr)
    (.refl _)⟩

omit [StateMachine σ] in
theorem copySilently (h : Sim k voters c s) {call : Call} (hmem : call ∈ c.calls) :
    Sim k voters (c.copySilently call) s :=
  { h with copies :=
      List.forall_mem_append.mpr ⟨h.copies, List.forall_mem_singleton.mpr (h.calls call hmem)⟩ }

omit [StateMachine σ] in
/-- A copy of a call that asks for no vote leaves the pending votes as they are. -/
theorem copyCall (h : Sim k voters c s) {call : Call} (hmem : call ∈ c.calls)
    (hvote : call.isVote = false) : Sim k voters (c.copyCall call) s := by
  have hpending : (c.copyCall call).pendingVotes = c.pendingVotes := by
    simp [Cluster.pendingVotes, Cluster.copyCall, Call.voteKey_eq_none hvote]
  exact { h with
    calls :=
      List.forall_mem_append.mpr ⟨h.calls, List.forall_mem_singleton.mpr (h.calls call hmem)⟩
    once := hpending ▸ h.once
    uncounted := hpending ▸ h.uncounted }

/-- A vote callback counts a vote that was pending. -/
theorem countVote (h : Sim k voters c s) {i : Nat} {r : Reply} (hr : c.replies[i]? = some r)
    {req : RequestVoteReq} {majority : Nat} {resp : RequestVoteResp}
    (hans : r.answer = .requestVote req majority resp) :
    let out := (c.nodes r.sender).onRequestVoteReply req.term majority resp
    ∃ s', Extends s s' ∧
      Sim k voters { c.put r.sender out.1 out.2 with replies := c.replies.eraseIdx i } s' := by
  intro out
  have hinv := h.replies r (List.mem_of_getElem? hr)
  rw [ReplyInv, hans] at hinv
  -- the pending votes are the one answered and the others
  set c₁ : Cluster σ := { c with replies := c.replies.eraseIdx i } with hc₁
  have hperm : c.pendingVotes.Perm ((r.sender, r.target, req.term) :: c₁.pendingVotes) := by
    have hp := (perm_cons_eraseIdx hr).filterMap Reply.voteKey
    rw [List.filterMap_cons_some (by rw [Reply.voteKey, hans])] at hp
    exact (hp.symm.append_left _).trans List.perm_middle
  obtain ⟨hnot, hnodup⟩ := List.nodup_cons.mp (hperm.nodup_iff.mp h.once)
  have hself := h.uncounted _ (hperm.mem_iff.mpr List.mem_cons_self)
  obtain ⟨s', hmv, ht, hcalls⟩ := (h.tracks r.sender).onRequestVoteReply hinv.1 hinv.2 hself
  have hnone : out.2.filterMap Call.voteKey = [] :=
    List.filterMap_eq_nil_iff.mpr fun call hc => (hcalls call hc).2
  have hpending : ({ c.put r.sender out.1 out.2 with replies := c.replies.eraseIdx i } :
      Cluster σ).pendingVotes = c₁.pendingVotes := by
    simp only [Cluster.pendingVotes, Cluster.put, List.filterMap_append, hnone, List.append_nil,
      hc₁]
  -- the answered vote is counted and no longer pending; the others stay uncounted
  refine ⟨s', hmv.ext, h.update hmv ht rfl rfl
    (fun call hc => (List.mem_append.mp hc).imp_right fun hs => (hcalls call hs).1) rfl
    (fun x hx => .inl (List.mem_of_mem_eraseIdx hx)) (hpending ▸ hnodup) fun key hkey => ?_⟩
  rw [hpending] at hkey
  refine hmv.uncounted (h.uncounted key (hperm.mem_iff.mpr (.tail _ hkey))) ?_
  rintro hk ⟨hv, ht⟩
  refine hnot ?_
  rw [← hk, ← hv, ← ht]
  exact hkey

/-- A reply callback is followed. -/
theorem callback (h : Sim k voters c s) {i : Nat} {r : Reply} (hr : c.replies[i]? = some r) :
    let out := (c.nodes r.sender).callback r.target r.answer
    ∃ s', Extends s s' ∧
      Sim k voters { c.put r.sender out.1 out.2 with replies := c.replies.eraseIdx i } s' := by
  have hinv := h.replies r (List.mem_of_getElem? hr)
  have hsub : (c.replies.eraseIdx i).Sublist c.replies := List.eraseIdx_sublist _ _
  -- the other callbacks send nothing and leave all pending votes alone
  have hquiet : ∀ nd, (∃ s', Moves r.sender noVote s s' ∧ Tracks k voters s' r.sender nd) →
      ∃ s', Extends s s' ∧
        Sim k voters { c.put r.sender nd [] with replies := c.replies.eraseIdx i } s' := by
    rintro nd ⟨s', hmv, ht⟩
    refine ⟨s', hmv.ext, h.quiet hmv ht rfl rfl
      (fun call hc => .inl (by simpa [Cluster.put] using hc)) rfl
      (fun x hx => .inl (hsub.subset hx)) ?_⟩
    simp only [Cluster.pendingVotes, Cluster.put, List.append_nil]
    exact ((hsub.filterMap _).append_left _).subperm
  cases hans : r.answer with
  | requestVote req majority resp => exact h.countVote hr hans
  | appendEntries req resp =>
      rw [ReplyInv, hans] at hinv
      exact hquiet _ ((h.tracks r.sender).onAppendEntriesReply hinv.1 hinv.2)
  | installSnapshot req resp =>
      rw [ReplyInv, hans] at hinv
      exact hquiet _ ((h.tracks r.sender).onInstallSnapshotReply hinv resp)

/-! ## Steps and runs -/

/-- **Simulation step**: the protocol follows every step it is meant to. -/
theorem step (h : Sim k voters c s) (hvoters : voters.Nodup) (hsome : voters ≠ [])
    (hok : c.Followed k a) (hstep : c.step a = some c') :
    ∃ s', Extends s s' ∧ Sim k voters c' s' := by
  obtain ⟨n, nd, sent, hown, hn, rfl⟩ | ⟨i, call, rfl, hcall, -, rfl⟩ |
    ⟨i, call, rfl, hcall, rfl⟩ | ⟨i, call, rfl, hcall, rfl⟩ | ⟨i, call, rfl, hcall, -, rfl⟩ |
    ⟨i, r, rfl, hr, -, -, rfl⟩ := Cluster.step_cases hstep
  · exact h.ownStep hvoters hsome hok hown hn
  · exact h.receive hcall fun hk => hok.safe hk call hcall
  · have hvote : (c.calls[i]?.any Call.isVote) = false := hok.steady.2
    rw [hcall] at hvote
    exact ⟨s, .refl s, h.copyCall (List.mem_of_getElem? hcall) hvote⟩
  · exact ⟨s, .refl s, h.copySilently (List.mem_of_getElem? hcall)⟩
  · exact h.rehandle (List.mem_of_getElem? hcall) fun hk => hok.safe hk call hcall
  · exact h.callback hr

/-- The protocol follows every run whose steps it follows. -/
theorem run (h : Sim k voters c s) (hvoters : voters.Nodup) (hsome : voters ≠ [])
    (hrun : Run Cluster.step (Cluster.Followed k) c c') :
    ∃ s', Extends s s' ∧ Sim k voters c' s' :=
  hrun.simulate Extends.refl (fun _ _ _ => Extends.trans)
    (fun _ _ _ _ h hok hstep => h.step hvoters hsome hok hstep) h

/-- The empty protocol stands next to a cluster that is just started. -/
theorem start (S : Setup) : Sim k S.config.voters (S.start : Cluster σ) .init where
  members := S.members_ne_zero
  global := {
    elections := .init _
    nonzero := nofun
    logs := fun _ => .init
    indexed := fun _ _ => .nil 0
    commits := fun _ => .init _ }
  node := fun _ => {
    votes := ⟨rfl, rfl, rfl, rfl, rfl, rfl, nofun, nofun, nofun, nofun⟩
    logs := fun _ => ⟨⟨Nat.le_refl 0, rfl, rfl, .nil 0⟩, nofun⟩
    uncompacted := fun _ => ⟨rfl, rfl⟩
    commits := fun _ => ⟨.nil _ _, Nat.le_refl 0, .nil _ _, Nat.le_refl 0, Nat.le_refl 0, nofun,
      nofun, nofun⟩
    led := nofun }
  calls := nofun
  copies := nofun
  replies := nofun
  once := .nil
  uncounted := nofun

/-- Every state of a run is followed. -/
theorem of_run (S : Setup) {c : Cluster σ}
    (hrun : Run Cluster.step (Cluster.Followed k) S.start c) : ∃ s, Sim k S.config.voters c s :=
  ((start S).run S.voters_nodup S.voters_ne_nil hrun).imp fun _ h => h.2

/-- Two moments of a run are followed, and the later one extends the earlier. -/
theorem of_onOneRun (S : Setup) {c c' : Cluster σ}
    (hrun : OnOneRun Cluster.step (Cluster.Followed k) S.start c c') :
    ∃ s s', Sim k S.config.voters c s ∧ Sim k S.config.voters c' s' ∧
      (Extends s s' ∨ Extends s' s) :=
  hrun.simulate (fun _ _ _ r h => h.run S.voters_nodup S.voters_ne_nil r) (start S)

end Sim

end KvRaft
