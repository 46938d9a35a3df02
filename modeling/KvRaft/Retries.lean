import KvRaft.Dedup

/-!
# KvRaft.Retries

What becomes of the requests of a client that do not come in order.  `lastSeq_`
keeps one result a client, that of its last executed request, and recognises a
request by comparing its sequence number with the highest one so far:

* a retry is answered with the result of whatever its client executed last
  (`retry_result`), so it gets its own answer only if that result is the same
  (`retry_answer_iff`);
* a request that is new but lower than another one of its client is dropped
  (`new_request_executed_iff`).
-/

namespace KvRaft

namespace KvStore

/-! ## The answer to a retry -/

/-- The result of the last of the commands that a client has executed, none
where all of its commands are recognised. -/
def lastExecuted (s : KvStore) (clientId : Nat) : List KvCommand → Option Bytes
  | [] => none
  | cmd :: cmds =>
      (lastExecuted (s.applyCommand cmd).1 clientId cmds).or
        (if cmd.clientId = clientId ∧ s.cached cmd = none then some (execute s.data cmd).2
          else none)

/-- The result that `lastSeq_` holds for a client. -/
def lastResult (s : KvStore) (clientId : Nat) : Option Bytes :=
  (s.lastSeq.lookup clientId).map Prod.snd

theorem lastResult_applyCommand (s : KvStore) (cmd : KvCommand) {clientId : Nat}
    (hclient : clientId ≠ 0) :
    (s.applyCommand cmd).1.lastResult clientId =
      (if cmd.clientId = clientId ∧ s.cached cmd = none then some (execute s.data cmd).2
        else none).or (s.lastResult clientId) := by
  by_cases hmine : cmd.clientId = clientId
  · subst hmine
    cases hcached : s.cached cmd with
    | some result => simp [applyCommand_of_cached hcached]
    | none => simp [lastResult, lookup_lastSeq_applyCommand hclient hcached]
  · simp [lastResult, lookup_lastSeq_applyCommand_of_ne s (Ne.symm hmine), hmine]

/-- The entry of a client is the result of the last command it has executed. -/
theorem lastResult_after (s : KvStore) {clientId : Nat} (hclient : clientId ≠ 0)
    (cmds : List KvCommand) :
    (s.after cmds).lastResult clientId =
      (s.lastExecuted clientId cmds).or (s.lastResult clientId) := by
  induction cmds generalizing s with
  | nil => rfl
  | cons cmd cmds ih =>
      rw [after_cons, ih, lastResult_applyCommand s cmd hclient, lastExecuted, Option.or_assoc]

/-- A recognised command is answered with the result of its client's entry. -/
theorem lastResult_of_cached {s : KvStore} {cmd : KvCommand} {result : Bytes}
    (h : s.cached cmd = some result) : s.lastResult cmd.clientId = some result := by
  unfold cached at h
  unfold lastResult
  split at h
  · contradiction
  · cases hlookup : s.lastSeq.lookup cmd.clientId with
    | none => simp [hlookup] at h
    | some p => grind

/-- A command leaves its result behind, whether it is executed or recognised. -/
theorem lastResult_applyCommand_self (s : KvStore) {cmd : KvCommand} (hclient : cmd.clientId ≠ 0) :
    (s.applyCommand cmd).1.lastResult cmd.clientId = some (s.applyCommand cmd).2 := by
  cases hcached : s.cached cmd with
  | some result => simpa [applyCommand_of_cached hcached] using lastResult_of_cached hcached
  | none =>
      rw [lastResult_applyCommand s cmd hclient, (applyCommand_of_cached_eq_none hcached).2]
      simp [hcached]

/-- A command that was applied is recognised from then on. -/
theorem cached_after_applyCommand (s : KvStore) {cmd : KvCommand} (hclient : cmd.clientId ≠ 0)
    (between : List KvCommand) : ((s.applyCommand cmd).1.after between).cached cmd ≠ none := by
  rw [← after_cons, Ne, cached_after_eq_none_iff hclient]
  exact fun hbelow => lt_irrefl _ (hbelow.2 cmd List.mem_cons_self rfl)

/-- A retry gets the result of the last command that its client has executed
since. -/
theorem retry_result (s : KvStore) {cmd : KvCommand} (hclient : cmd.clientId ≠ 0)
    (between : List KvCommand) :
    (((s.applyCommand cmd).1.after between).applyCommand cmd).2 =
      ((s.applyCommand cmd).1.lastExecuted cmd.clientId between).getD (s.applyCommand cmd).2 := by
  obtain ⟨result, hresult⟩ :=
    Option.ne_none_iff_exists'.mp (s.cached_after_applyCommand hclient between)
  have hlast := lastResult_of_cached hresult
  rw [lastResult_after _ hclient, lastResult_applyCommand_self s hclient] at hlast
  rw [applyCommand_of_cached hresult]
  cases hexecuted : (s.applyCommand cmd).1.lastExecuted cmd.clientId between with
  | none => simpa [hexecuted] using hlast.symm
  | some r => simpa [hexecuted] using hlast.symm

/-- **When a retry gets its own answer**: in a list of commands that holds a
request of a client, the same request once more gets the result of its first
application exactly if the last other command that the client has executed since,
if there is one, had that result too. -/
theorem retry_answer_iff (s : KvStore) (before between : List KvCommand) {cmd : KvCommand}
    (hclient : cmd.clientId ≠ 0) :
    ((s.after (before ++ cmd :: between)).applyCommand cmd).2 =
        ((s.after before).applyCommand cmd).2 ↔
      ∀ result ∈ (s.after (before ++ [cmd])).lastExecuted cmd.clientId between,
        result = ((s.after before).applyCommand cmd).2 := by
  rw [after_append, after_append, after_cons, after_cons, after_nil,
    retry_result (s.after before) hclient between]
  cases ((s.after before).applyCommand cmd).1.lastExecuted cmd.clientId between <;> simp

/-- A client that retries its latest request, after a request of another one. -/
theorem retry_answer_iff_of_latest :
    let put : KvCommand := ⟨.put, [107], [1], [], 7, 1⟩
    let cas : KvCommand := ⟨.cas, [107], [2], [9], 8, 1⟩
    put.clientId ≠ 0 ∧
      ((ofCommands [put, cas]).applyCommand put).2 = (empty.applyCommand put).2 := by
  intro put cas
  have hclient : put.clientId ≠ 0 := by decide
  exact ⟨hclient, (retry_answer_iff empty [] [cas] hclient).mpr (by decide)⟩

/-- **A retry gets the answer of another request**: a client's put succeeds, its
compare-and-swap fails, and the put sent once more is told that it failed. -/
theorem retry_gets_other_answer :
    let put : KvCommand := ⟨.put, [107], [1], [], 7, 1⟩
    let cas : KvCommand := ⟨.cas, [107], [2], [9], 7, 2⟩
    (empty.applyCommand put).2 = resultOk ∧
      ((ofCommands [put, cas]).applyCommand put).2 = resultCasMismatch ∧
      ((ofCommands [put, cas]).applyCommand put).2 ≠ (empty.applyCommand put).2 := by
  decide

/-! ## Requests that are new -/

/-- Executing the command would leave the data as they are: what it puts is
there, what it deletes is not, or it compares with something else. -/
def NoEffect (data : AList fun _ : Bytes => Bytes) (cmd : KvCommand) : Prop :=
  match cmd.op with
  | .put => data.lookup cmd.key = some cmd.value
  | .del => data.lookup cmd.key = none
  | .cas => (data.lookup cmd.key).getD [] ≠ cmd.expect ∨ data.lookup cmd.key = some cmd.value
  | .other _ => True

theorem insert_perm_iff {α β : Type} [DecidableEq α] {m : AList fun _ : α => β} {a : α} {b : β} :
    (m.insert a b).entries.Perm m.entries ↔ m.lookup a = some b := by
  constructor
  · intro hperm
    rw [← AList.perm_lookup hperm, AList.lookup_insert]
  · intro hlookup
    -- inserting the value that is there moves the entry to the front
    have hmem : a ∈ m.entries.keys := AList.mem_keys.mp (AList.lookup_isSome.mp (by simp [hlookup]))
    obtain ⟨b', l₁, l₂, -, hentries, herase⟩ := List.exists_of_kerase hmem
    have hat : m.lookup a = some b' := List.mem_dlookup m.nodupKeys (by simp [hentries])
    rw [hlookup] at hat
    cases hat
    rw [AList.entries_insert, herase, hentries]
    exact List.perm_middle.symm

theorem erase_perm_iff {α β : Type} [DecidableEq α] {m : AList fun _ : α => β} {a : α} :
    (m.erase a).entries.Perm m.entries ↔ m.lookup a = none := by
  constructor
  · intro hperm
    rw [← AList.perm_lookup hperm, AList.lookup_erase]
  · intro hlookup
    have hnot : a ∉ m.entries.keys := AList.lookup_eq_none.mp hlookup
    exact .of_eq (List.kerase_of_notMem_keys hnot)

theorem execute_perm_iff {data : AList fun _ : Bytes => Bytes} {cmd : KvCommand} :
    (execute data cmd).1.entries.Perm data.entries ↔ NoEffect data cmd := by
  unfold execute NoEffect
  cases cmd.op with
  | put => exact insert_perm_iff
  | del => exact erase_perm_iff
  | cas =>
      simp only
      split
      · next hexpect => simp only [insert_perm_iff, hexpect, ne_eq, not_true, false_or]
      · next hexpect => simp [hexpect]
  | other => simp

/-- **When a request is executed**: after a list of commands, another one does to
the data what its operation says exactly if it has no client, or is above all of
its client's requests so far, or would change nothing.  Whether the request is a
new one plays no role. -/
theorem new_request_executed_iff (s : KvStore) (cmds : List KvCommand) (cmd : KvCommand) :
    ((s.after cmds).applyCommand cmd).1.data.entries.Perm
        (execute (s.after cmds).data cmd).1.entries ↔
      cmd.clientId = 0 ∨
        ((∀ p ∈ s.lastSeq.lookup cmd.clientId, p.1 < cmd.requestSeq) ∧
          ∀ x ∈ cmds, x.clientId = cmd.clientId → x.requestSeq < cmd.requestSeq) ∨
        NoEffect (s.after cmds).data cmd := by
  by_cases hclient : cmd.clientId = 0
  · have hnone : (s.after cmds).cached cmd = none := if_pos hclient
    simp [(applyCommand_of_cached_eq_none hnone).1, hclient]
  rw [← cached_after_eq_none_iff hclient]
  cases hcached : (s.after cmds).cached cmd with
  | none => simp [(applyCommand_of_cached_eq_none hcached).1]
  | some result =>
      -- answered from the table: executing would have to change nothing
      rw [applyCommand_of_cached hcached, List.perm_comm, execute_perm_iff]
      simp [hclient]

/-- **A new request is dropped**: two threads of a client draw the numbers 1 and
2, the second one's put is applied first, and the other one's does nothing. -/
theorem new_request_dropped :
    let first : KvCommand := ⟨.put, [107], [1], [], 7, 1⟩
    let second : KvCommand := ⟨.put, [108], [2], [], 7, 2⟩
    (first.clientId, first.requestSeq) ≠ (second.clientId, second.requestSeq) ∧
      ((ofCommands [second]).applyCommand first).1.get [107] = none ∧
      ¬ ((ofCommands [second]).applyCommand first).1.data.entries.Perm
        (execute (ofCommands [second]).data first).1.entries ∧
      ((ofCommands [second]).applyCommand first).2 = resultOk := by
  decide

end KvStore

end KvRaft
