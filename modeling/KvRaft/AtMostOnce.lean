import KvRaft.Dedup
import KvRaft.KvClient
import KvRaft.Recovery

/-!
# KvRaft.AtMostOnce

How often one call of `put`, `del` or `cas` takes effect.  Its attempts may all
reach a leader, and their commands stand in the log in any order, among those
of other clients and of other calls.

Each attempt draws a sequence number of its own, so the store recognises a
retry only if a command of the client with at least its number is applied
before it (`RetriesRecognised`).  Under that condition, and for a client id the
store keeps only under it, at most one command of the call changes the store
(`at_most_one_change`); `retry_writes_again` is a call that does so twice.
-/

namespace KvRaft

namespace KvClient

/-- The client's commands in `log` are those of the call and those of other
calls, which have other sequence numbers. -/
def DrawnOnce (c : KvClient) (q : Requested) (log : List KvCommand) : Prop :=
  ∀ x ∈ log, x.clientId = c.clientId →
    x ∈ q.created ∨ x.requestSeq < c.seq ∨ q.client.seq ≤ x.requestSeq

/-- When a command of the call is applied after another one, `lastSeq_` covers
it. -/
def RetriesRecognised (c : KvClient) (q : Requested) (log : List KvCommand) : Prop :=
  ∀ (applied : List KvCommand) cmd, applied ++ [cmd] <+: log → cmd ∈ q.created →
    (∃ x ∈ applied, x ∈ q.created) →
    c.clientId ≠ 0 ∧ ∃ x ∈ applied, x.clientId = c.clientId ∧ cmd.requestSeq ≤ x.requestSeq

/-- How many commands of the call change the store. -/
def changes (q : Requested) (log : List KvCommand) : Nat :=
  (KvStore.changing .empty log).countP (· ∈ q.created)

section

variable {q : Requested} {log : List KvCommand} {cmd : KvCommand}

theorem changes_concat_of_new (hmine : cmd ∈ q.created)
    (hnew : ((KvStore.ofCommands log).applyCommand cmd).1 ≠ KvStore.ofCommands log) :
    changes q (log ++ [cmd]) = changes q log + 1 := by
  rw [changes, KvStore.changing_concat, if_neg hnew, List.countP_append, changes]
  simp [hmine]

theorem changes_concat_of_not_new
    (h : cmd ∈ q.created →
      ((KvStore.ofCommands log).applyCommand cmd).1 = KvStore.ofCommands log) :
    changes q (log ++ [cmd]) = changes q log := by
  rw [changes, KvStore.changing_concat, List.countP_append, changes]
  split
  · rfl
  · next hnew => simp [mt h hnew]

theorem changes_le_concat (q : Requested) (log : List KvCommand) (cmd : KvCommand) :
    changes q log ≤ changes q (log ++ [cmd]) := by
  rw [changes, changes, KvStore.changing_concat, List.countP_append]
  exact Nat.le_add_right _ _

end

theorem Requested.Drew.of_mem {q : Requested} {c : KvClient} {r : Request} {m : Nat}
    (h : q.Drew c r m) {x : KvCommand} (hx : x ∈ q.created) :
    x.clientId = c.clientId ∧ c.seq ≤ x.requestSeq ∧ x.requestSeq < q.client.seq := by
  rw [h.2, List.mem_map] at hx
  obtain ⟨seq, hseq, rfl⟩ := hx
  obtain ⟨hle, hlt⟩ := List.mem_range'_1.mp hseq
  exact ⟨rfl, hle, by rw [h.1]; exact hlt⟩

section

variable {c : KvClient} {q : Requested} {log : List KvCommand}

theorem RetriesRecognised.front {cmd : KvCommand} (h : RetriesRecognised c q (log ++ [cmd])) :
    RetriesRecognised c q log :=
  fun applied x hx => h applied x (hx.trans (List.prefix_append log [cmd]))

/-- Where retries are recognised, the first command of the call is the only one
that may change the store. -/
theorem RetriesRecognised.changes_le {r : Request} {m : Nat} (hdrew : q.Drew c r m)
    (h : RetriesRecognised c q log) :
    changes q log ≤ 1 ∧ ((∀ x ∈ log, x ∉ q.created) → changes q log = 0) := by
  -- induction from the end of the log: the last command changes something or not
  induction log using List.reverseRecOn with
  | nil => exact ⟨Nat.zero_le 1, fun _ => rfl⟩
  | append_singleton log cmd ih =>
      obtain ⟨hle, hzero⟩ := ih h.front
      by_cases hmine : cmd ∈ q.created
      · refine ⟨?_, fun hnone => absurd hmine (hnone cmd (by simp))⟩
        -- a later command of the call is recognised as a retry
        by_cases hbefore : ∃ x ∈ log, x ∈ q.created
        · obtain ⟨hclient, hcovered⟩ := h log cmd (List.prefix_refl _) hmine hbefore
          rw [← (hdrew.of_mem hmine).1] at hclient hcovered
          rwa [changes_concat_of_not_new fun _ =>
            (KvStore.applyCommand_ofCommands_eq_self hclient).mpr hcovered]
        · -- the first one may change the store, and nothing before it did
          have hnone := hzero fun x hx hcreated => hbefore ⟨x, hx, hcreated⟩
          by_cases hself : ((KvStore.ofCommands log).applyCommand cmd).1 = KvStore.ofCommands log
          · rwa [changes_concat_of_not_new fun _ => hself]
          · rw [changes_concat_of_new hmine hself, hnone]
      · rw [changes_concat_of_not_new fun h => absurd h hmine]
        exact ⟨hle, fun hnone => hzero fun x hx => hnone x (List.mem_append_left _ hx)⟩

/-- As long as no later call has been applied, the first command of the call
changes the store. -/
theorem changes_pos {r : Request} {m : Nat} (hdrew : q.Drew c r m) (hclient : c.clientId ≠ 0)
    (hdrawn : DrawnOnce c q log) (hmine : ∃ x ∈ log, x ∈ q.created)
    (hbelow : ∀ x ∈ log, x.clientId = c.clientId → x.requestSeq < q.client.seq) :
    0 < changes q log := by
  induction log using List.reverseRecOn with
  | nil => obtain ⟨x, hx, -⟩ := hmine; cases hx
  | append_singleton log cmd ih =>
      -- a command of the call before this one has changed the store already
      by_cases hbefore : ∃ x ∈ log, x ∈ q.created
      · have hpos := ih (fun x hx => hdrawn x (List.mem_append_left _ hx)) hbefore
          fun x hx => hbelow x (List.mem_append_left _ hx)
        exact hpos.trans_le (changes_le_concat q log cmd)
      · obtain ⟨x, hx, hcreated⟩ := hmine
        obtain hx | hx := List.mem_append.mp hx
        · exact absurd ⟨x, hx, hcreated⟩ hbefore
        · obtain rfl := List.mem_singleton.mp hx
          obtain ⟨hid, hle, -⟩ := hdrew.of_mem hcreated
          rw [changes_concat_of_new hcreated fun hself => ?_]
          · exact Nat.succ_pos _
          -- what the client has in the log so far is of earlier calls
          obtain ⟨y, hy, hyid, hyle⟩ :=
            (KvStore.applyCommand_ofCommands_eq_self (hid ▸ hclient)).mp hself
          have hyid := hyid.trans hid
          have hylt := hbelow y (List.mem_append_left _ hy) hyid
          obtain hycreated | hylow | hyhigh := hdrawn y (List.mem_append_left _ hy) hyid
          · exact hbefore ⟨y, hy, hycreated⟩
          · omega
          · omega

/-- If the call changes the store once, its retries are recognised. -/
theorem RetriesRecognised.of_changes_le {r : Request} {m : Nat} (hdrew : q.Drew c r m)
    (hclient : c.clientId ≠ 0) (hdrawn : DrawnOnce c q log) (h : changes q log ≤ 1) :
    RetriesRecognised c q log := by
  induction log using List.reverseRecOn with
  | nil =>
      intro applied cmd hpre
      simp at hpre
  | append_singleton log cmd ih =>
      have hdrawn' : DrawnOnce c q log := fun x hx => hdrawn x (List.mem_append_left _ hx)
      have hfront := ih hdrawn' ((changes_le_concat q log cmd).trans h)
      intro applied x hpre hcreated hbefore
      obtain heq | hpre := List.prefix_concat_iff.mp hpre
      swap
      · exact hfront applied x hpre hcreated hbefore
      obtain ⟨rfl, hx⟩ := List.append_inj' heq rfl
      obtain rfl := List.singleton_inj.mp hx
      -- the last command is new to the store, so it would be the second to change it
      refine ⟨hclient, ?_⟩
      by_contra hnew
      push Not at hnew
      obtain ⟨hid, -, hlt⟩ := hdrew.of_mem hcreated
      have hpos := changes_pos hdrew hclient hdrawn' hbefore fun y hy hyid =>
        (hnew y hy hyid).trans hlt
      rw [changes_concat_of_new hcreated fun hself => ?_] at h
      · omega
      obtain ⟨y, hy, hyid, hyle⟩ :=
        (KvStore.applyCommand_ofCommands_eq_self (hid ▸ hclient)).mp hself
      exact absurd (hnew y hy (hyid.trans hid)) (Nat.not_lt.mpr hyle)

end

/-- At most one command of a call changes the store if its retries are
recognised, and only then if the client id is not 0. -/
theorem at_most_one_change {c : KvClient} {r : Request} (hfits : Fits c r 5)
    (servers : Option (List Bytes)) (world : Nat → Exchange) {log : List KvCommand}
    (hdrawn : DrawnOnce c (c.request servers r world) log) :
    (RetriesRecognised c (c.request servers r world) log →
        changes (c.request servers r world) log ≤ 1) ∧
      (c.clientId ≠ 0 → changes (c.request servers r world) log ≤ 1 →
        RetriesRecognised c (c.request servers r world) log) := by
  obtain ⟨m, -, hdrew⟩ := request_drew hfits servers world
  exact ⟨fun h => (h.changes_le hdrew).1, fun hclient h => .of_changes_le hdrew hclient hdrawn h⟩

/-! ## A lost response -/

/-- A client puts `v` under `k`; the first response is lost. -/
def lostOnce : Requested :=
  request ⟨7, 1⟩ (some [[97, 58, 49]]) (put [107] [118]) fun attempt =>
    if attempt = 0 then .unanswered else .answered (KvServer.response 0 [] KvStore.resultOk)

/-- The node after it has served a frame. -/
def served (n : RaftNode KvStore) (frame : Bytes) : RaftNode KvStore :=
  match KvServer.dispatch (fun _ => some n) frame with
  | .ok (some n', _) => n'
  | _ => n

/-- The retry overtakes the first attempt. -/
theorem at_most_one_change_of_overtaken :
    lostOnce.created = [⟨.put, [107], [118], [], 7, 1⟩, ⟨.put, [107], [118], [], 7, 2⟩] ∧
      RetriesRecognised ⟨7, 1⟩ lostOnce
        [⟨.put, [107], [118], [], 7, 2⟩, ⟨.put, [107], [119], [], 8, 1⟩,
          ⟨.put, [107], [118], [], 7, 1⟩] := by
  refine ⟨by decide +kernel, ?_⟩
  have hdrawn : DrawnOnce ⟨7, 1⟩ lostOnce
      [⟨.put, [107], [118], [], 7, 2⟩, ⟨.put, [107], [119], [], 8, 1⟩,
        ⟨.put, [107], [118], [], 7, 1⟩] := by
    unfold DrawnOnce
    decide +kernel
  exact (at_most_one_change (by constructor <;> decide) _ _ hdrawn).2 (by decide)
    (by decide +kernel)

/-- The first attempt is served, then another client's put, then the retry. -/
theorem retry_writes_again :
    ∃ first retry, lostOnce.sent.map Prod.snd = [first, retry] ∧
      lostOnce.result.toOption = some (true, some KvStore.resultOk) ∧
      let other := frame ⟨8, 1⟩ (put [107] [119])
      let n₁ := served (Single.init 1 1000 []).node first
      let n₂ := served n₁ other
      let n₃ := served n₂ retry
      n₁.sm.get [107] = some [118] ∧ n₂.sm.get [107] = some [119] ∧
        n₃.sm.get [107] = some [118] ∧
        changes lostOnce ([first, other, retry].filterMap command?) = 2 :=
  ⟨frame ⟨7, 1⟩ (put [107] [118]), frame ⟨7, 2⟩ (put [107] [118]), by decide +kernel⟩

end KvClient

end KvRaft
