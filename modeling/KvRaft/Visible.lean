import KvRaft.ApplyOrder

/-!
# KvRaft.Visible

What has been applied when `waitApplied` or `linearizableReadBarrier` returns.
Both wait for `lastApplied`, which `applyCommittedEntries` advances for a whole
batch before it applies the first entry of it.

* `Threads.Accounted` — every index above the restored snapshots and up to
  `lastApplied` was taken up exactly once in this life: it is applied, or some
  thread has yet to apply it; and a result is stored, or about to be;
* `applied_is_visible` — a wait that returns has everything up to its index
  applied and hands out the result of its entry, if it looks while no thread
  has anything up to there left to do (`Threads.SeesApplied`);
* `wait_returns_early` — otherwise it can return before its entry is applied.
-/

namespace KvRaft

open Pool
open PersistentLog (IndexedFrom)

variable {σ : Type}

/-! ## Results that are yet to be stored -/

/-- The result that the stretch is about to store, with its index. -/
def Stretch.owed : Stretch → List (Nat × Bytes)
  | .storeResult index result => [(index, result)]
  | _ => []

theorem Stretch.owed_of_isPlain {k : Stretch} (h : k.isPlain = true) : k.owed = [] := by
  cases k with
  | storeResult => contradiction
  | _ => rfl

namespace Stretch

variable [StateMachine σ]

/-- Only an applied entry leaves a result to store. -/
theorem next_owed (n : RaftNode σ) {k : Stretch} (hk : ∀ e rest, k ≠ .applyLoop (e :: rest)) :
    (k.run n).next.flatMap owed = [] := by
  refine List.flatMap_eq_nil_iff.mpr fun k' hk' => ?_
  cases next_follows hk' with
  | result e rest => exact absurd rfl (hk e rest)
  | plain hplain => exact owed_of_isPlain hplain
  | _ => rfl

end Stretch

/-! ## What a wait looks at -/

namespace Stretch

variable [StateMachine σ] {n : RaftNode σ} {k : Stretch}

/-- Only `waitApplied` returns so. -/
theorem of_out_applied {index : Nat} {result : Bytes}
    (h : .applied index result ∈ (k.run n).out) :
    k = .waitApplied index ∧ n.waitApplied index = some result := by
  cases out_sends h with
  | applied _ hwait => exact ⟨rfl, hwait⟩
  | plain hplain => contradiction

/-- Only the read barrier returns so. -/
theorem of_out_readable {target : Nat} (h : .readable target ∈ (k.run n).out) :
    k = .awaitTarget target ∧ target ≤ n.lastApplied := by
  cases out_sends h with
  | readable hreached => exact ⟨rfl, hreached⟩
  | plain hplain => contradiction

end Stretch

namespace Threads

/-- The indices that were applied in this life or that a thread has yet to
apply. -/
def taken (s : Threads σ) : List Nat :=
  s.life.map (·.entry.index) ++ (load Stretch.work s.threads).map LogEntry.index

/-- Everything up to `index` that no restored snapshot covers is applied. -/
def Visible (s : Threads σ) (index : Nat) : Prop :=
  ∀ j, s.covered < j → j ≤ index → ∃ o ∈ s.life, o.entry.index = j

end Threads

/-- A wait that is about to return looks while no thread has an entry up to its
index left to apply, nor the result of its entry left to store.  Accepted
entries are consecutive and start above the snapshot. -/
def Stretch.SeesApplied (s : Threads σ) : Stretch → Prop
  | .waitApplied index => index ≤ s.node.lastApplied →
      (∀ e ∈ load Stretch.work s.threads, index < e.index) ∧
        ∀ p ∈ load Stretch.owed s.threads, p.1 ≠ index
  | .awaitTarget target => target ≤ s.node.lastApplied →
      ∀ e ∈ load Stretch.work s.threads, target < e.index
  | .acceptEntries req => RaftNode.consistencyCheck s.node.log req = none → req.entries ≠ [] →
      s.node.log.snapshotIndex ≤ req.prevLogIndex ∧ IndexedFrom req.prevLogIndex req.entries
  | _ => True

instance (s : Threads σ) (k : Stretch) : Decidable (k.SeesApplied s) := by
  rcases k with _ | _
  case waitApplied => exact inferInstanceAs (Decidable (_ → _ ∧ _))
  case awaitTarget => exact inferInstanceAs (Decidable (_ → ∀ e ∈ _, _))
  case acceptEntries => exact inferInstanceAs (Decidable (_ → _ → _ ∧ _))
  all_goals exact instDecidableTrue

def Threads.SeesApplied (s : Threads σ) (a : Threads.Action) : Prop :=
  ∀ k ∈ s.running a, k.SeesApplied s

instance (s : Threads σ) (a : Threads.Action) : Decidable (s.SeesApplied a) :=
  inferInstanceAs (Decidable (∀ k ∈ s.running a, _))

/-! ## Along a run -/

namespace Threads

/-- Indices are taken up once and in full, and results are stored or owed. -/
structure Accounted (s : Threads σ) : Prop where
  aligned : s.node.log.Aligned
  synced : s.node.log.Synced
  nodup : s.taken.Nodup
  taken_le : ∀ j ∈ s.taken, j ≤ s.node.lastApplied
  taken_all : ∀ j, s.covered < j → j ≤ s.node.lastApplied → j ∈ s.taken

/-- A result that is stored or owed is that of an applied entry, and every
applied entry has one. -/
structure Answered [StateMachine σ] (s : Threads σ) : Prop where
  owed : ∀ p ∈ load Stretch.owed s.threads, ∃ o ∈ s.life, o.entry.index = p.1 ∧ o.result = p.2
  results : ∀ o ∈ s.life, s.node.pendingResults.lookup o.entry.index = some o.result ∨
    (o.entry.index, o.result) ∈ load Stretch.owed s.threads

namespace Accounted

variable {s s' : Threads σ}

/-- The next `m` indices are taken up, where `lastApplied` may also be moved by a
snapshot that covers what it skips. -/
theorem of_taken (h : Accounted s) (haligned : s'.node.log.Aligned) (hsynced : s'.node.log.Synced)
    {m : Nat} (htaken : s'.taken.Perm (List.range' (s.node.lastApplied + 1) m ++ s.taken))
    (hle : s.node.lastApplied + m ≤ s'.node.lastApplied)
    (hskip : ∀ j, s'.covered < j → j ≤ s'.node.lastApplied →
      s.covered < j ∧ j ≤ s.node.lastApplied + m) : Accounted s' where
  aligned := haligned
  synced := hsynced
  nodup := by
    -- the new indices lie above all that were taken
    refine htaken.nodup_iff.mpr (List.nodup_append'.mpr ⟨List.nodup_range', h.nodup, ?_⟩)
    intro j hj hold
    have := h.taken_le j hold
    have := (List.mem_range'_1.mp hj).1
    omega
  taken_le j hj := by
    rcases List.mem_append.mp (htaken.mem_iff.mp hj) with hnew | hold
    · have := (List.mem_range'_1.mp hnew).2
      omega
    · have := h.taken_le j hold
      omega
  taken_all j hcovered hj := by
    obtain ⟨hcovered, hj⟩ := hskip j hcovered hj
    refine htaken.mem_iff.mpr (List.mem_append.mpr ?_)
    -- an index up to the old last-applied one was taken before
    by_cases hold : j ≤ s.node.lastApplied
    · exact .inr (h.taken_all j hcovered hold)
    · exact .inl (List.mem_range'_1.mpr (by omega))

theorem ran [StateMachine σ] (h : Accounted s) {i : Nat} {k : Stretch} {ks : List Stretch}
    (hi : s.threads[i]? = some (k :: ks)) (hok : k.SeesApplied s) : Accounted (s.ran i k ks) := by
  obtain ⟨others, hload, hset⟩ := load_set Stretch.work hi
  have haligned : (s.ran i k ks).node.log.Aligned :=
    Stretch.run_aligned h.aligned s.toHistory fun req hreq => by subst hreq; exact hok
  have hsynced : (s.ran i k ks).node.log.Synced := Stretch.run_synced h.synced s.toHistory k
  have hbefore : s.taken.Perm
      (s.life.map (·.entry.index) ++ (k.work ++ others).map LogEntry.index) :=
    (hload.map _).append_left _
  have hafter : (s.ran i k ks).taken.Perm ((s.toHistory.after s.node k).life.map (·.entry.index) ++
      ((k.run s.node).next.flatMap Stretch.work ++ others).map LogEntry.index) :=
    ((hset _).map _).append_left _
  have hnode : (s.ran i k ks).node = (k.run s.node).shared := rfl
  have hcovered : (s.ran i k ks).covered = (s.toHistory.after s.node k).covered := rfl
  have hdoes := k.does s.toHistory s.node
  generalize s.toHistory.after s.node k = h', (k.run s.node).shared = n',
    (k.run s.node).next.flatMap Stretch.work = w at hdoes hafter hnode hcovered
  -- in all cases but a claim nothing new is taken up
  have hsame : h'.life = s.life → w = k.work → n'.lastApplied = s.node.lastApplied →
      h'.covered = s.covered → Accounted (s.ran i k ks) := by
    intro hlife hwork hlast hcov
    rw [hlife, hwork] at hafter
    refine h.of_taken (m := 0) haligned hsynced (hafter.trans hbefore.symm) ?_ fun j hj hj' => ?_
    · rw [hnode, hlast]
      exact Nat.le_refl _
    · rw [hcovered, hcov] at hj
      rw [hnode, hlast] at hj'
      exact ⟨hj, hj'⟩
  cases hdoes with
  | keep hk hsameh hdata => exact hsame hsameh.life hk.symm hdata.lastApplied hsameh.covered
  | append data type hk hsameh => exact hsame hsameh.life hk.symm rfl hsameh.covered
  | accept | compact | store => exact hsame rfl rfl rfl rfl
  -- an installed snapshot covers what it skips
  | install req hgt =>
      refine h.of_taken (m := 0) haligned hsynced (hafter.trans hbefore.symm) ?_ fun j hj hj' => ?_
      · rw [hnode]
        exact Nat.le_max_left _ _
      · rw [hcovered] at hj
        rw [hnode] at hj'
        change max s.covered req.lastIncludedIndex < j at hj
        change j ≤ max s.node.lastApplied req.lastIncludedIndex at hj'
        omega
  -- the batch is new, and its indices follow the last one applied
  | claim =>
      have hindexed : IndexedFrom s.node.lastApplied s.node.toApply :=
        RaftNode.collect_indexed h.aligned _ _
      have hnew : (s.ran i .applyCommittedEntries ks).taken.Perm
          (List.range' (s.node.lastApplied + 1) s.node.toApply.length ++ s.taken) := by
        rw [List.map_append, hindexed.map_index] at hafter
        exact (hafter.trans (List.perm_append_comm_assoc _ _ _)).trans (hbefore.symm.append_left _)
      refine h.of_taken haligned hsynced hnew (by rw [hnode]; exact Nat.le_refl _)
        fun j hj hj' => ?_
      rw [hnode] at hj'
      exact ⟨hj, hj'⟩
  -- the entry moves from the work of the thread to the records
  | apply e =>
      obtain ⟨_, _, _, _, hone⟩ := s.node.applyOne_eq e
      have hmoved : (s.ran i (.applyLoop (e :: w)) ks).taken.Perm s.taken := by
        rw [List.map_append, List.append_assoc] at hafter
        exact hafter.trans hbefore.symm
      refine h.of_taken (m := 0) haligned hsynced hmoved ?_ fun j hj hj' => ?_
      · rw [hnode, hone]
        exact Nat.le_refl _
      · rw [hnode, hone] at hj'
        exact ⟨hj, hj'⟩

end Accounted

namespace Answered

variable [StateMachine σ] {s : Threads σ} {i : Nat} {ks : List Stretch}

/-- A stretch that neither applies an entry nor stores a result. -/
theorem of_quiet (h : Answered s) {k : Stretch} (hi : s.threads[i]? = some (k :: ks))
    (howed : k.owed = []) (hk : ∀ e rest, k ≠ .applyLoop (e :: rest)) :
    Answered (s.ran i k ks) := by
  obtain ⟨others, hload, hset⟩ := load_set Stretch.owed hi
  have hmem : ∀ p, p ∈ load Stretch.owed (s.ran i k ks).threads ↔
      p ∈ load Stretch.owed s.threads := fun p => by
    have hafter := (hset (k.run s.node).next).mem_iff (a := p)
    rw [Stretch.next_owed s.node hk] at hafter
    rw [howed] at hload
    exact hafter.trans hload.mem_iff.symm
  -- such a section neither applies anything nor stores a result
  have hkept : (s.toHistory.after s.node k).life = s.life ∧
      (k.run s.node).shared.pendingResults = s.node.pendingResults := by
    have hdoes := k.does s.toHistory s.node
    generalize s.toHistory.after s.node k = h', (k.run s.node).shared = n',
      (k.run s.node).next.flatMap Stretch.work = w at hdoes
    cases hdoes with
    | keep _ hsameh hdata => exact ⟨hsameh.life, hdata.pendingResults⟩
    | append _ _ _ hsameh => exact ⟨hsameh.life, rfl⟩
    | accept | install | compact | claim => exact ⟨rfl, rfl⟩
    | apply e => exact absurd rfl (hk e w)
    | store => contradiction
  refine ⟨fun p hp => ?_, fun o ho => ?_⟩
  · obtain ⟨o, ho, hresult⟩ := h.owed p ((hmem p).mp hp)
    exact ⟨o, hkept.1 ▸ ho, hresult⟩
  · have ho' : o ∈ s.life := hkept.1 ▸ ho
    exact (h.results o ho').imp (fun hl => by
      change (k.run s.node).shared.pendingResults.lookup _ = _
      rw [hkept.2]
      exact hl) (hmem _).mpr

/-- An entry is applied, and its result is owed. -/
theorem of_applyLoop (h : Answered s) {e : LogEntry} {rest : List LogEntry}
    (hi : s.threads[i]? = some (.applyLoop (e :: rest) :: ks)) :
    Answered (s.ran i (.applyLoop (e :: rest)) ks) := by
  obtain ⟨others, hload, hset⟩ := load_set Stretch.owed hi
  obtain ⟨_, _, _, _, hone⟩ := s.node.applyOne_eq e
  have hafter := hset ((Stretch.applyLoop (e :: rest)).run s.node).next
  have hnext : ((Stretch.applyLoop (e :: rest)).run s.node).next.flatMap Stretch.owed =
      [(e.index, Applied.result ⟨e, s.node.sm⟩)] := by
    simp only [Stretch.run, hone]
    rfl
  rw [hnext] at hafter
  have hold : ∀ {p}, p ∈ load Stretch.owed s.threads →
      p ∈ load Stretch.owed (s.ran i (.applyLoop (e :: rest)) ks).threads := fun hp =>
    hafter.mem_iff.mpr (List.mem_cons_of_mem _ (hload.mem_iff.mp hp))
  refine ⟨fun p hp => ?_, fun o ho => ?_⟩
  · -- the result of this entry is owed from now on
    rcases List.mem_cons.mp (hafter.mem_iff.mp hp) with rfl | hp
    · exact ⟨⟨e, s.node.sm⟩, List.mem_append_right s.life List.mem_cons_self, rfl, rfl⟩
    · obtain ⟨o, ho, hresult⟩ := h.owed p (hload.mem_iff.mpr hp)
      exact ⟨o, List.mem_append_left _ ho, hresult⟩
  · -- a record made before keeps its result, stored or owed
    rcases List.mem_append.mp ho with ho | ho
    · refine (h.results o ho).imp (fun hl => ?_) hold
      change (s.node.applyOne e).1.pendingResults.lookup _ = _
      rw [hone]
      exact hl
    · obtain rfl := List.mem_singleton.mp ho
      exact .inr (hafter.mem_iff.mpr List.mem_cons_self)

/-- A result is stored; no other entry of this life has its index. -/
theorem of_storeResult (h : Answered s) (hnodup : (s.life.map (·.entry.index)).Nodup) {index : Nat}
    {result : Bytes} (hi : s.threads[i]? = some (.storeResult index result :: ks)) :
    Answered (s.ran i (.storeResult index result) ks) := by
  obtain ⟨others, hload, hset⟩ := load_set Stretch.owed hi
  have hafter := hset []
  refine ⟨fun p hp => h.owed p ?_, fun o ho => ?_⟩
  · exact hload.mem_iff.mpr (List.mem_cons_of_mem _ (hafter.mem_iff.mp hp))
  · obtain ⟨x, hx, hindex, hresult⟩ :=
      h.owed (index, result) (hload.mem_iff.mpr List.mem_cons_self)
    change (s.node.pendingResults.insert index result).lookup _ = _ ∨ _
    by_cases heq : o.entry.index = index
    · obtain rfl : o = x := List.inj_on_of_nodup_map hnodup ho hx (heq.trans hindex.symm)
      rw [heq, AList.lookup_insert]
      exact .inl (congrArg some hresult.symm)
    · rw [AList.lookup_insert_ne heq]
      refine (h.results o ho).imp_right fun howed => hafter.mem_iff.mpr ?_
      refine (List.mem_cons.mp (hload.mem_iff.mp howed)).resolve_left fun hfirst => heq ?_
      exact congrArg Prod.fst hfirst

theorem ran (h : Answered s) (hnodup : (s.life.map (·.entry.index)).Nodup) {k : Stretch}
    (hi : s.threads[i]? = some (k :: ks)) : Answered (s.ran i k ks) := by
  cases k with
  | storeResult index result => exact h.of_storeResult hnodup hi
  | applyLoop toApply =>
      cases toApply with
      | nil => exact h.of_quiet hi rfl nofun
      | cons e rest => exact h.of_applyLoop hi
  | _ => exact h.of_quiet hi rfl nofun

end Answered

theorem accounted_step [StateMachine σ] {s s' : Threads σ} {a : Action}
    (h : Accounted s ∧ Answered s) (hok : s.SeesApplied a) (hstep : s.step a = some s') :
    Accounted s' ∧ Answered s' := by
  obtain ⟨ha, hr⟩ := h
  obtain ⟨entry, -, rfl⟩ | ⟨i, k, ks, rfl, hi, rfl⟩ | ⟨-, rfl⟩ := step_cases hstep
  · have hwork : load Stretch.work (s.threads ++ [[entry.stretch]]) = load Stretch.work s.threads :=
      load_append (Stretch.work_of_isPlain entry.isPlain)
    have howed : load Stretch.owed (s.threads ++ [[entry.stretch]]) = load Stretch.owed s.threads :=
      load_append (Stretch.owed_of_isPlain entry.isPlain)
    refine ⟨⟨ha.aligned, ha.synced, ?_, ?_, ?_⟩, ⟨?_, ?_⟩⟩
    · rw [taken, hwork]; exact ha.nodup
    · rw [taken, hwork]; exact ha.taken_le
    · rw [taken, hwork]; exact ha.taken_all
    · rw [howed]; exact hr.owed
    · rw [howed]; exact hr.results
  · exact ⟨ha.ran hi (hok k (running_of_getElem? hi)), hr.ran ha.nodup.of_append_left hi⟩
  · have hlog : s.node.restart.log = s.node.log := ha.synced
    refine ⟨⟨by rw [hlog]; exact ha.aligned, by rw [hlog]; exact ha.synced, List.nodup_nil, nofun,
      fun j hj hj' => ?_⟩, ⟨nofun, nofun⟩⟩
    exact absurd hj (Nat.not_lt.mpr hj')

/-- Where no thread has anything up to `index` left to apply. -/
theorem Accounted.visible {s : Threads σ} (h : Accounted s) {index : Nat}
    (hindex : index ≤ s.node.lastApplied)
    (hidle : ∀ e ∈ load Stretch.work s.threads, index < e.index) : s.Visible index := by
  intro j hcovered hj
  rcases List.mem_append.mp (h.taken_all j hcovered (hj.trans hindex)) with hlife | hwork
  · exact List.mem_map.mp hlife
  · obtain ⟨e, he, rfl⟩ := List.mem_map.mp hwork
    exact absurd (hidle e he) (Nat.not_lt.mpr hj)

/-- The stretch that emits an output. -/
theorem exists_emitter [StateMachine σ] {s s' : Threads σ} {a : Action} {o : Output}
    (hstep : s.step a = some s') (hout : s'.out = s.out ++ [o]) :
    ∃ k, s.running a = some k ∧ o ∈ (k.run s.node).out := by
  have hsilent : s.out ≠ s.out ++ [o] := by simp
  obtain ⟨entry, -, rfl⟩ | ⟨i, k, ks, rfl, hi, rfl⟩ | ⟨-, rfl⟩ := step_cases hstep
  · exact absurd hout hsilent
  · have heq : (k.run s.node).out = [o] := List.append_cancel_left hout
    exact ⟨k, running_of_getElem? hi, by rw [heq]; exact List.mem_singleton_self o⟩
  · exact absurd hout hsilent

end Threads

variable [StateMachine σ]

/-- **Applied means visible**: in every run that meets `Threads.SeesApplied`,
when a step makes `waitApplied` or the read barrier return true, every entry up
to its index that no restored snapshot covers is applied, and `waitApplied`
hands out the result of the entry at its index. -/
theorem applied_is_visible {id : NodeId} {threshold : Nat} {config : ClusterConfig}
    {s s' : Threads σ} {a : Threads.Action}
    (hrun : Run Threads.step Threads.SeesApplied (.init id threshold config) s)
    (hok : s.SeesApplied a) (hstep : s.step a = some s') :
    (∀ index result, s'.out = s.out ++ [.applied index result] →
      s.Visible index ∧ ∀ o ∈ s.life, o.entry.index = index → result = o.result) ∧
    ∀ target, s'.out = s.out ++ [.readable target] → s.Visible target := by
  obtain ⟨haccounted, hanswered⟩ : s.Accounted ∧ s.Answered :=
    hrun.invariant (P := fun s => s.Accounted ∧ s.Answered)
      -- at the start nothing is taken up, and no result is owed
      ⟨⟨.nil 0, rfl, List.nodup_nil, nofun, fun j hj hj' => absurd hj (Nat.not_lt.mpr hj')⟩,
        ⟨nofun, nofun⟩⟩ fun _ _ _ h hok hstep => Threads.accounted_step h hok hstep
  refine ⟨fun index result hout => ?_, fun target hout => ?_⟩
  · -- the section that answers has checked the index and looked the result up
    obtain ⟨k, hk, hmem⟩ := Threads.exists_emitter hstep hout
    obtain ⟨rfl, hwait⟩ := Stretch.of_out_applied hmem
    have hlooked : index ≤ s.node.lastApplied ∧
        result = (s.node.pendingResults.lookup index).getD [] := by
      simp only [RaftNode.waitApplied, Option.ite_none_right_eq_some, Option.some.injEq] at hwait
      exact ⟨hwait.1, hwait.2.symm⟩
    obtain ⟨hwork, howed⟩ := hok _ hk hlooked.1
    refine ⟨haccounted.visible hlooked.1 hwork, fun o ho hindex => ?_⟩
    -- the result is stored, because no thread owes it any more
    have hstored := (hanswered.results o ho).resolve_right fun h => howed _ h hindex
    rw [hlooked.2, ← hindex, hstored, Option.getD_some]
  · obtain ⟨k, hk, hmem⟩ := Threads.exists_emitter hstep hout
    obtain ⟨rfl, hreached⟩ := Stretch.of_out_readable hmem
    exact haccounted.visible hreached (hok _ hk hreached)

/-- Node 1 has applied everything, and a client waits for its command at
index 2. -/
def waitedFor : Threads KvStore := replay Threads.step appliedAll [.start (.waitApplied 2)]

theorem applied_is_visible_of_waitedFor :
    (replay Threads.step waitedFor [.run 7]).out =
        waitedFor.out ++ [.applied 2 KvStore.resultOk] ∧ waitedFor.Visible 2 := by
  have hrun : Run Threads.step Threads.SeesApplied firstOfThree waitedFor :=
    .trans (run_replay (by decide +kernel) : Run _ _ _ proposedTwice)
      (.trans (run_replay (by decide +kernel) : Run _ _ _ appliedAll)
        (run_replay (by decide +kernel)))
  have hout : (replay Threads.step waitedFor [.run 7]).out =
      waitedFor.out ++ [.applied 2 KvStore.resultOk] := by decide +kernel
  have hok : waitedFor.SeesApplied (.run 7) := by decide +kernel
  exact ⟨hout, ((applied_is_visible hrun hok (step_replay (by decide +kernel))).1 2 _ hout).1⟩

open Threads.Action (start)

/-- Node 3 acknowledges all three entries; its callback commits and claims them.
Then a client waits for its command at index 2. -/
def waitedEarly : Threads KvStore :=
  replay Threads.step proposedTwice
    ([start (.reply 3 (.appendEntries (heartbeatReq 3) ⟨1, true, 3, 0, 0⟩))] ++
      Threads.runs 6 3 ++ [start (.waitApplied 2)])

/-- The wait returns without a result, before `apply` was called at all. -/
theorem wait_returns_early :
    Run Threads.step (fun _ _ => True) firstOfThree waitedEarly ∧
      waitedEarly.step (.run 7) = some (replay Threads.step waitedEarly [.run 7]) ∧
      (replay Threads.step waitedEarly [.run 7]).out = waitedEarly.out ++ [.applied 2 []] ∧
      waitedEarly.covered = 0 ∧ waitedEarly.life.length = 0 ∧ ¬ waitedEarly.Visible 2 := by
  have hlife : waitedEarly.life.length = 0 := by decide +kernel
  refine ⟨.trans (run_replay (by decide +kernel) : Run _ _ _ proposedTwice)
    (run_replay (by decide +kernel)), step_replay (by decide +kernel), by decide +kernel,
    by decide +kernel, hlife, fun h => ?_⟩
  obtain ⟨o, ho, -⟩ := h 2 (by decide +kernel) (Nat.le_refl 2)
  exact absurd (List.length_pos_of_mem ho) (by omega)

end KvRaft
