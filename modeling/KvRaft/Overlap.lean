import KvRaft.Aligned

/-!
# KvRaft.Overlap

What an accepted AppendEntries request leaves of a log it overlaps with.
`appendAndSync` cuts the log at the first entry of the request, whether or not
the two conflict, so the entries of the follower survive only if the request
brings them along (`appendEntries_keeps_iff`).
-/

namespace KvRaft

open PersistentLog

variable {σ : Type}

namespace RaftNode

/-- Where the request and the log have an entry at the same index, it is one of
the same term. -/
def AgreesWith (n : RaftNode σ) (req : AppendEntriesReq) : Prop :=
  ∀ e ∈ req.entries, ∀ x ∈ n.log.entries, x.index = e.index → x.term = e.term

instance (n : RaftNode σ) (req : AppendEntriesReq) : Decidable (n.AgreesWith req) :=
  inferInstanceAs (Decidable (∀ e ∈ _, ∀ x ∈ _, _ → _))

/-- The longer of the log and of its front with the entries of the request, as
far as they are above the snapshot. -/
def longer (n : RaftNode σ) (req : AppendEntriesReq) : List LogEntry :=
  let extended := n.log.entries.take (req.prevLogIndex - n.log.snapshotIndex) ++
    req.entries.drop (n.log.snapshotIndex - req.prevLogIndex)
  if n.log.entries.length ≤ extended.length then extended else n.log.entries

/-- The request has no entries, or it starts at or above the snapshot and repeats
every entry that the log has above its start. -/
def Repeats (n : RaftNode σ) (req : AppendEntriesReq) : Prop :=
  req.entries = [] ∨ n.log.snapshotIndex ≤ req.prevLogIndex ∧
    ∀ e ∈ n.log.entries, req.prevLogIndex < e.index → e ∈ req.entries

instance (n : RaftNode σ) (req : AppendEntriesReq) : Decidable (n.Repeats req) :=
  inferInstanceAs (Decidable (_ ∨ _ ∧ ∀ e ∈ _, _ → _))

variable [StateMachine σ] {n : RaftNode σ} {req : AppendEntriesReq}

/-! ## The entries after a request -/

theorem handleAppendEntries_entries (n : RaftNode σ) (req : AppendEntriesReq) :
    (n.handleAppendEntries req).1.log.entries =
      if n.accepts req then (n.log.appendAndSync req.entries).entries else n.log.entries := by
  have hsame := SameData.becomeFollower n req.term req.leaderId
  split
  · next hacc =>
    rw [handleAppendEntries_log hacc]
    exact appendAndSync_entries_congr hsame.entries hsame.snapshotIndex _
  · next hacc =>
    have hhandles := n.handles_handle (.appendEntries req)
    change (n.handle (.appendEntries req)).1.log.entries = _
    generalize (n.handle (.appendEntries req)).1 = n' at hhandles
    cases hhandles with
    | refuse => rfl
    | reject => exact hsame.entries
    | accept _ h => exact absurd h hacc

theorem handleAppendEntries_snapshotIndex (n : RaftNode σ) (req : AppendEntriesReq) :
    (n.handleAppendEntries req).1.log.snapshotIndex = n.log.snapshotIndex := by
  have hhandles := n.handles_handle (.appendEntries req)
  change (n.handle (.appendEntries req)).1.log.snapshotIndex = _
  generalize (n.handle (.appendEntries req)).1 = n' at hhandles
  cases hhandles with
  | refuse => rfl
  | reject => exact becomeFollower_snapshotIndex n _ _
  | accept =>
      rw [applyCommittedEntries_log]
      exact (appendAndSync_snapshotIndex _ _).trans (becomeFollower_snapshotIndex n _ _)

omit [StateMachine σ] in
/-- The place of the request's start is in the log. -/
theorem start_le_length (h : n.log.Aligned) (hacc : n.accepts req) :
    req.prevLogIndex - n.log.snapshotIndex ≤ n.log.entries.length := by
  have hreach := prevLogIndex_le h hacc.2
  rw [h.lastIndex] at hreach
  omega

/-! ## What survives -/

section Survives

omit [StateMachine σ]

variable (h : n.log.Aligned) (hreq : IndexedFrom req.prevLogIndex req.entries)
include h hreq

/-- The request begins with what the log has above its start if it repeats it. -/
theorem drop_isPrefix_iff (hsnap : n.log.snapshotIndex ≤ req.prevLogIndex) :
    n.log.entries.drop (req.prevLogIndex - n.log.snapshotIndex) <+: req.entries ↔
      ∀ e ∈ n.log.entries, req.prevLogIndex < e.index → e ∈ req.entries := by
  have hdrop := IndexedFrom.drop h (req.prevLogIndex - n.log.snapshotIndex)
  rw [Nat.add_sub_cancel' hsnap] at hdrop
  constructor
  · intro hp e he hlt
    exact hp.subset (h.mem_drop he hlt)
  · intro hall
    refine hdrop.isPrefix_of_subset hreq fun e he => ?_
    exact hall e (List.mem_of_mem_drop he) (hdrop.getElem?_of_mem he).1

/-- Entries from below the snapshot are not those of the log. -/
theorem entries_ne_of_lt (hne : req.entries ≠ [])
    (hlt : req.prevLogIndex < n.log.snapshotIndex) : req.entries ≠ n.log.entries := by
  intro heq
  -- the first entry would have two indices
  obtain ⟨e, es, hes⟩ := List.exists_cons_of_ne_nil hne
  have htheirs := hreq 0 e (by rw [hes]; rfl)
  have hmine := h 0 e (by rw [← heq, hes]; rfl)
  omega

theorem entries_ne_longer_of_lt (hne : req.entries ≠ [])
    (hlt : req.prevLogIndex < n.log.snapshotIndex) : req.entries ≠ n.longer req := by
  intro heq
  unfold longer at heq
  simp only [Nat.sub_eq_zero_of_le hlt.le, List.take_zero, List.nil_append] at heq
  split at heq
  · have hlen := congrArg List.length heq
    have hpos := List.length_pos_iff.mpr hne
    rw [List.length_drop] at hlen
    omega
  · exact entries_ne_of_lt h hreq hne hlt heq

theorem appendAndSync_keeps_iff :
    n.log.entries <+: (n.log.appendAndSync req.entries).entries ∧
      (n.log.appendAndSync req.entries).entries = n.longer req ↔ n.Repeats req := by
  -- a heartbeat leaves the log as it is
  by_cases hnil : req.entries = []
  · have hlonger : n.longer req = n.log.entries := by
      unfold longer
      simp only [hnil, List.drop_nil, List.append_nil]
      split
      · next hle => exact List.take_of_length_le (by rw [List.length_take] at hle; omega)
      · rfl
    rw [hnil, hlonger]
    exact iff_of_true ⟨List.prefix_rfl, rfl⟩ (.inl hnil)
  rw [Repeats, or_iff_right hnil]
  -- below the snapshot the positions are off by the difference
  rcases Nat.lt_or_ge req.prevLogIndex n.log.snapshotIndex with hlt | hge
  · rw [appendAndSync_entries_of_lt hlt hnil hreq]
    exact iff_of_false (fun hkept => entries_ne_longer_of_lt h hreq hnil hlt hkept.2)
      fun hrepeats => Nat.not_le_of_lt hlt hrepeats.1
  · rw [appendAndSync_entries hge hnil hreq, ← drop_isPrefix_iff h hreq hge]
    -- what is cut off has to come again in the request
    have hcut : n.log.entries <+:
        n.log.entries.take (req.prevLogIndex - n.log.snapshotIndex) ++ req.entries ↔
        n.log.entries.drop (req.prevLogIndex - n.log.snapshotIndex) <+: req.entries := by
      conv_lhs =>
        lhs
        rw [← List.take_append_drop (req.prevLogIndex - n.log.snapshotIndex) n.log.entries]
      exact List.prefix_append_right_inj _
    rw [hcut, and_iff_right hge]
    refine and_iff_left_of_imp fun hp => ?_
    have hlen := (hcut.mpr hp).length_le
    simp only [longer, Nat.sub_eq_zero_of_le hge, List.drop_zero, if_pos hlen]

/-- A request all of whose entries are in the log. -/
theorem appendAndSync_eq_self_iff (hknown : ∀ e ∈ req.entries, e ∈ n.log.entries) :
    (n.log.appendAndSync req.entries).entries = n.log.entries ↔ n.Repeats req := by
  by_cases hnil : req.entries = []
  · rw [hnil]
    exact iff_of_true rfl (.inl hnil)
  rw [Repeats, or_iff_right hnil]
  rcases Nat.lt_or_ge req.prevLogIndex n.log.snapshotIndex with hlt | hge
  · rw [appendAndSync_entries_of_lt hlt hnil hreq]
    exact iff_of_false (entries_ne_of_lt h hreq hnil hlt)
      fun hrepeats => Nat.not_le_of_lt hlt hrepeats.1
  · rw [appendAndSync_entries hge hnil hreq, ← drop_isPrefix_iff h hreq hge, and_iff_right hge]
    have hdrop := IndexedFrom.drop h (req.prevLogIndex - n.log.snapshotIndex)
    rw [Nat.add_sub_cancel' hge] at hdrop
    -- the request is a slice of the log, which the rest of the log equals or exceeds
    have hpre : req.entries <+:
        n.log.entries.drop (req.prevLogIndex - n.log.snapshotIndex) :=
      hreq.isPrefix_of_subset hdrop fun e he =>
        h.mem_drop (hknown e he) (hreq.getElem?_of_mem he).1
    constructor
    · intro heq
      have hsplit := List.take_append_drop (req.prevLogIndex - n.log.snapshotIndex) n.log.entries
      rw [List.append_cancel_left (heq.trans hsplit.symm)]
    · intro hp
      rw [hpre.eq_of_length_le hp.length_le, List.take_append_drop]

end Survives

/-- The request just handled changes nothing. -/
theorem handleAppendEntries_twice (h : n.log.Aligned)
    (hreq : IndexedFrom req.prevLogIndex req.entries) (hacc : n.accepts req) :
    ((n.handleAppendEntries req).1.handleAppendEntries req).1.log.entries =
      (n.handleAppendEntries req).1.log.entries := by
  have hentries := n.handleAppendEntries_entries req
  have hsnap := n.handleAppendEntries_snapshotIndex req
  rw [if_pos hacc] at hentries
  rw [handleAppendEntries_entries]
  split
  · by_cases hnil : req.entries = []
    · rw [hnil]
      rfl
    -- the second time the same part is cut and appended again
    rcases Nat.lt_or_ge req.prevLogIndex n.log.snapshotIndex with hlt | hge
    · rw [appendAndSync_entries_of_lt (hsnap ▸ hlt) hnil hreq, hentries,
        appendAndSync_entries_of_lt hlt hnil hreq]
    · have hlen : (n.log.entries.take (req.prevLogIndex - n.log.snapshotIndex)).length =
          req.prevLogIndex - n.log.snapshotIndex := by
        rw [List.length_take]
        exact Nat.min_eq_left (start_le_length h hacc)
      rw [appendAndSync_entries (hsnap ▸ hge) hnil hreq, hentries, hsnap,
        appendAndSync_entries hge hnil hreq, List.take_left' hlen]
  · rfl

/-- **What an overlapping request leaves of a log**: an accepted request of
consecutive entries leaves every entry of the follower in place, and the longer
of its log and of the front with the entries of the request, exactly if it
repeats what it replaces; a request all of whose entries are there leaves the
log alone in the same cases.  The request just handled always does. -/
theorem appendEntries_keeps_iff (h : n.log.Aligned)
    (hreq : IndexedFrom req.prevLogIndex req.entries) (hacc : n.accepts req) :
    (n.log.entries <+: (n.handleAppendEntries req).1.log.entries ∧
        (n.handleAppendEntries req).1.log.entries = n.longer req ↔ n.Repeats req) ∧
      ((∀ e ∈ req.entries, e ∈ n.log.entries) →
        ((n.handleAppendEntries req).1.log.entries = n.log.entries ↔ n.Repeats req)) ∧
      ((n.handleAppendEntries req).1.handleAppendEntries req).1.log.entries =
        (n.handleAppendEntries req).1.log.entries := by
  have htwice := handleAppendEntries_twice h hreq hacc
  have hentries := n.handleAppendEntries_entries req
  rw [if_pos hacc] at hentries
  rw [htwice, hentries]
  exact ⟨appendAndSync_keeps_iff h hreq, appendAndSync_eq_self_iff h hreq, rfl⟩

/-- A follower of term 1 with two entries. -/
def twoEntries : RaftNode KvStore :=
  .new 2 1000 ⟨[1, 2, 3], []⟩
    ⟨some (1, 0), none, some [⟨1, 1, .noOp, []⟩, ⟨1, 2, .command, [7]⟩]⟩ 0 []

/-- A third entry comes together with the two that are there. -/
theorem appendEntries_keeps_iff_of_twoEntries :
    let req : AppendEntriesReq :=
      ⟨1, 1, 0, 0, [⟨1, 1, .noOp, []⟩, ⟨1, 2, .command, [7]⟩, ⟨1, 3, .command, [8]⟩], 0⟩
    twoEntries.Repeats req ∧
      (twoEntries.handleAppendEntries req).1.log.entries = twoEntries.longer req := by
  intro req
  have hrepeats : twoEntries.Repeats req := by decide
  have hreq : IndexedFrom req.prevLogIndex req.entries := by decide
  have hacc : twoEntries.accepts req := by decide
  have hiff := appendEntries_keeps_iff (by decide) hreq hacc
  exact ⟨hrepeats, (hiff.1.mpr hrepeats).2⟩

/-- **An older request cuts the log**: it carries the first of the two entries,
which is the one the follower has, and the second one is gone. -/
theorem older_request_discards :
    let req : AppendEntriesReq := ⟨1, 1, 0, 0, [⟨1, 1, .noOp, []⟩], 0⟩
    twoEntries.log.Aligned ∧ IndexedFrom req.prevLogIndex req.entries ∧
      twoEntries.accepts req ∧ twoEntries.AgreesWith req ∧
      (twoEntries.handleAppendEntries req).1.log.entries = [⟨1, 1, .noOp, []⟩] ∧
      ¬ twoEntries.log.entries <+: (twoEntries.handleAppendEntries req).1.log.entries := by
  decide

end RaftNode

end KvRaft
