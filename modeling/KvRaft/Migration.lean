import KvRaft.ShardManager

/-!
# KvRaft.Migration

`ShardManager::migrateRange` when its calls fail.  Nobody else writes, but a group
may not be led by this process, and `waitApplied` may give up on an entry that is
applied later or never.

`migrateRange` gives a key up if the put fails.  It does not look at the outcome of
the delete, and counts the key.

* `Groups` — the stores of the groups with the writes that wait in their logs, and
  the books on what became of the deletes;
* `Groups.Tallied` — every delete that was proposed is in the books once;
* `Groups.Moving` — between two groups, a key leaves the old one only after it has
  reached the new one;
* `migration_accounts_iff` — so no key is lost between two groups, but the count is
  right only if each delete has been applied and none was needed twice;
* `migration_miscounts` — one group in both roles, a delete that is refused, and
  one that is applied late.
-/

namespace KvRaft

/-! ## Groups that may fail -/

/-- A command of `migrateRange`: a put, or a delete where there is no value. -/
structure Write where
  key : Bytes
  value : Option Bytes

namespace Write

def command (w : Write) : KvCommand := .set w.key w.value 0 0

/-- The key of a delete. -/
def deletes (w : Write) : List Bytes :=
  match w.value with
  | none => [w.key]
  | some _ => []

theorem deletes_of_eq {w : Write} (h : w.value = none) : w.deletes = [w.key] := by
  rw [deletes, h]

theorem deletes_of_ne {w : Write} (h : w.value ≠ none) : w.deletes = [] := by
  obtain ⟨value, hvalue⟩ := Option.ne_none_iff_exists'.mp h
  rw [deletes, hvalue]

end Write

structure Groups where
  manager : ShardManager
  /-- the writes in a group's log that are not applied yet, oldest first -/
  pending : Nat → List Write
  /-- the keys of the deletes that were applied -/
  deleted : List Bytes
  /-- the keys of the deletes that were refused or got lost -/
  missed : List Bytes

namespace Groups

/-- What `propose` and `waitApplied` come to. -/
inductive Outcome
  | notLeader
  | applied
  | timedOut
  deriving DecidableEq

def apply (g : Groups) (id : Nat) (w : Write) : Groups :=
  { g with
    manager := g.manager.commit id w.command
    deleted := w.deletes ++ g.deleted }

/-- A write that its group never applies. -/
def miss (g : Groups) (w : Write) : Groups := { g with missed := w.deletes ++ g.missed }

def setPending (g : Groups) (id : Nat) (ws : List Write) : Groups :=
  { g with pending := Function.update g.pending id ws }

/-- A group applies the oldest of the writes that wait. -/
def late (g : Groups) (id : Nat) : Groups :=
  match g.pending id with
  | [] => g
  | w :: ws => (g.setPending id ws).apply id w

/-- A write that waits is overwritten in the log. -/
def lost (g : Groups) (id i : Nat) : Groups :=
  match (g.pending id)[i]? with
  | none => g
  | some w => (g.setPending id ((g.pending id).eraseIdx i)).miss w

/-- A group applies all that waits. -/
def settle (g : Groups) (id : Nat) : Groups :=
  (fun g => g.late id)^[(g.pending id).length] g

/-- A group applies its log in order, so a write that is applied in time follows
all that waited. -/
def propose (g : Groups) (id : Nat) (w : Write) : Outcome → Groups
  | .notLeader => g.miss w
  | .applied => (g.settle id).apply id w
  | .timedOut => g.setPending id (g.pending id ++ [w])

/-! ## The books -/

variable {fromId toId id i n : Nat} {g : Groups} {w : Write} {key : Bytes}
  {source : Bytes → Option Bytes} {Listed : Bytes → Prop}

/-- The deletes that wait in a group's log. -/
def waiting (g : Groups) (id : Nat) : List Bytes := (g.pending id).flatMap Write.deletes

theorem waiting_setPending (g : Groups) (id id' : Nat) (ws : List Write) :
    (g.setPending id ws).waiting id' =
      if id' = id then ws.flatMap Write.deletes else g.waiting id' := by
  change (Function.update g.pending id ws id').flatMap Write.deletes = _
  rw [Function.update_apply]
  split <;> rfl

theorem mem_pending_setPending {id' : Nat} {ws : List Write} :
    w ∈ (g.setPending id ws).pending id' ↔ if id' = id then w ∈ ws else w ∈ g.pending id' := by
  change w ∈ Function.update g.pending id ws id' ↔ _
  rw [Function.update_apply]
  split <;> rfl

/-- All deletes go to the group `fromId`, and of the `n` so far each was applied,
waits or was missed.  What that group had, it has unless it was deleted. -/
structure Tallied (fromId n : Nat) (source : Bytes → Option Bytes) (g : Groups) : Prop where
  group : (g.manager.group fromId).isSome
  total : n = g.deleted.length + (g.waiting fromId).length + g.missed.length
  others : ∀ id, id ≠ fromId → ∀ w ∈ g.pending id, w.value ≠ none
  present : ∀ key, (source key).isSome → key ∉ g.deleted →
    (g.manager.valueAt fromId key).isSome

/-- Between two groups: the old one has what it had without what was deleted, and
all that was or will be deleted is listed and in the new one. -/
structure Moving (fromId toId : Nat) (source : Bytes → Option Bytes) (Listed : Bytes → Prop)
    (g : Groups) : Prop where
  group : (g.manager.group toId).isSome
  old : ∀ key, g.manager.valueAt fromId key = if key ∈ g.deleted then none else source key
  waits : ∀ w ∈ g.pending fromId,
    w.value = none ∧ Listed w.key ∧ (g.manager.valueAt toId w.key).isSome
  moved : ∀ key ∈ g.deleted, Listed key ∧ (g.manager.valueAt toId key).isSome

/-- A put takes no key away. -/
theorem isSome_valueAt_apply (hput : w.value ≠ none) {id' : Nat}
    (h : (g.manager.valueAt id' key).isSome) :
    ((g.apply id w).manager.valueAt id' key).isSome := by
  by_cases hkey : key = w.key
  · by_cases hid : id' = id
    · subst hid
      have hgroup : (g.manager.group id').isSome := by
        cases hnone : g.manager.group id' with
        | none => simp [ShardManager.valueAt, hnone] at h
        | some sm => rfl
      change ((g.manager.commit id' (.set w.key w.value 0 0)).valueAt id' key).isSome
      rw [ShardManager.valueAt_commit_set_zero _ hgroup, if_pos hkey]
      exact Option.isSome_iff_ne_none.mpr hput
    · exact (ShardManager.valueAt_commit_of_ne _ hid).symm ▸ h
  · exact (ShardManager.valueAt_commit_set_of_ne _ hkey).symm ▸ h

/-- A write that is applied, wherever it comes from. -/
theorem Tallied.apply (h : g.Tallied fromId n source) :
    (g.apply id w).Tallied fromId (n + w.deletes.length) source := by
  refine ⟨ShardManager.isSome_group_commit _ h.group, ?_, h.others, fun key hkey hnot => ?_⟩
  · have htotal := h.total
    change n + w.deletes.length =
      (w.deletes ++ g.deleted).length + (g.waiting fromId).length + g.missed.length
    rw [List.length_append]
    omega
  · obtain ⟨hw, hdeleted⟩ := not_or.mp (mt List.mem_append.mpr hnot)
    have hold := h.present key hkey hdeleted
    by_cases hput : w.value = none
    · have hne : key ≠ w.key := fun heq => hw (by simp [Write.deletes_of_eq hput, heq])
      exact (ShardManager.valueAt_commit_set_of_ne _ hne).symm ▸ hold
    · exact isSome_valueAt_apply hput hold

/-- One of the writes that wait is taken from the log. -/
theorem Tallied.dequeue (h : g.Tallied fromId n source) {ws : List Write}
    (hperm : (g.pending id).Perm (w :: ws)) :
    ∃ m, n = m + w.deletes.length ∧ (g.setPending id ws).Tallied fromId m source := by
  have hothers : ∀ id', id' ≠ fromId → ∀ w ∈ (g.setPending id ws).pending id', w.value ≠ none := by
    intro id' hne w' hw'
    rw [mem_pending_setPending] at hw'
    split at hw'
    · next hid =>
        subst hid
        exact h.others id' hne w' (hperm.symm.subset (List.mem_cons_of_mem _ hw'))
    · exact h.others id' hne w' hw'
  have htotal := h.total
  -- only a delete of the old group counts, and one less of them waits
  by_cases hid : fromId = id
  · subst hid
    have hlength : (g.waiting fromId).length =
        w.deletes.length + (ws.flatMap Write.deletes).length := by
      rw [waiting, (hperm.flatMap_right _).length_eq, List.flatMap_cons, List.length_append]
    refine ⟨g.deleted.length + (ws.flatMap Write.deletes).length + g.missed.length, by omega,
      h.group, ?_, hothers, h.present⟩
    rw [waiting_setPending, if_pos rfl]
    rfl
  · -- a write to another group is no delete
    have hput := Write.deletes_of_ne
      (h.others id (Ne.symm hid) w (hperm.symm.subset List.mem_cons_self))
    refine ⟨n, by simp [hput], h.group, ?_, hothers, h.present⟩
    rw [waiting_setPending, if_neg hid]
    exact htotal

theorem Tallied.miss (h : g.Tallied fromId n source) :
    (g.miss w).Tallied fromId (n + w.deletes.length) source := by
  refine ⟨h.group, ?_, h.others, h.present⟩
  have htotal := h.total
  change n + w.deletes.length =
    g.deleted.length + (g.waiting fromId).length + (w.deletes ++ g.missed).length
  rw [List.length_append]
  omega

theorem Tallied.late (h : g.Tallied fromId n source) (id : Nat) :
    (g.late id).Tallied fromId n source := by
  unfold Groups.late
  split
  next => exact h
  next w ws hpending =>
    obtain ⟨m, rfl, hm⟩ := h.dequeue (.of_eq hpending)
    exact hm.apply

theorem Tallied.lost (h : g.Tallied fromId n source) (id i : Nat) :
    (g.lost id i).Tallied fromId n source := by
  unfold Groups.lost
  split
  next => exact h
  next w hw =>
    obtain ⟨hi, rfl⟩ := List.getElem?_eq_some_iff.mp hw
    obtain ⟨m, rfl, hm⟩ := h.dequeue (List.getElem_cons_eraseIdx_perm hi).symm
    exact hm.miss

/-- What single applications keep, `settle` keeps. -/
theorem settle_induction {P : Groups → Prop} (hlate : ∀ g, P g → P (g.late id)) (h : P g) :
    P (g.settle id) := by
  unfold settle
  induction (g.pending id).length generalizing g with
  | zero => exact h
  | succ k ih => exact ih (hlate g h)

theorem Tallied.propose (h : g.Tallied fromId n source) (hid : w.value = none → id = fromId)
    (o : Outcome) : (g.propose id w o).Tallied fromId (n + w.deletes.length) source := by
  cases o with
  | notLeader => exact h.miss
  | applied => exact (settle_induction (fun _ h => h.late id) h).apply
  -- the write may still be applied: it waits
  | timedOut =>
      refine ⟨h.group, ?_, fun id' hne w' hw' => ?_, h.present⟩
      · have htotal := h.total
        change _ = g.deleted.length +
          ((g.setPending id (g.pending id ++ [w])).waiting fromId).length + g.missed.length
        rw [waiting_setPending]
        split
        · next heq =>
            rw [← heq, List.flatMap_append, List.length_append, List.flatMap_singleton]
            unfold waiting at htotal
            omega
        · -- puts go to other groups and are not tallied
          next heq => rw [Write.deletes_of_ne fun hnone => heq (hid hnone).symm]; exact htotal
      · rw [Groups.propose, mem_pending_setPending] at hw'
        split at hw'
        · next heq =>
            rcases List.mem_append.mp hw' with hw' | hw'
            · exact h.others id' hne w' (heq ▸ hw')
            · cases List.mem_singleton.mp hw'
              exact fun hnone => hne (heq.trans (hid hnone))
        · exact h.others id' hne w' hw'

theorem Tallied.propose_put (h : g.Tallied fromId n source) (id : Nat) (key value : Bytes)
    (o : Outcome) : (g.propose id ⟨key, some value⟩ o).Tallied fromId n source :=
  h.propose (w := ⟨key, some value⟩) (fun hnone => by cases hnone) o

theorem Tallied.propose_delete (h : g.Tallied fromId n source) (key : Bytes) (o : Outcome) :
    (g.propose fromId ⟨key, none⟩ o).Tallied fromId (n + 1) source :=
  h.propose (w := ⟨key, none⟩) (fun _ => rfl) o

/-! ## Two groups -/

/-- A write to the old group that is a delete of a key the new one has. -/
structure Delete (fromId toId : Nat) (Listed : Bytes → Prop) (g : Groups) (id : Nat) (w : Write) :
    Prop where
  id : id = fromId
  value : w.value = none
  listed : Listed w.key
  there : (g.manager.valueAt toId w.key).isSome

theorem Moving.apply_delete (hne : fromId ≠ toId) (hgroup : (g.manager.group fromId).isSome)
    (h : g.Moving fromId toId source Listed) (hw : Delete fromId toId Listed g id w) :
    (g.apply id w).Moving fromId toId source Listed := by
  obtain ⟨rfl, hvalue, hlisted, hthere⟩ := hw
  have hnew (key : Bytes) :
      (g.apply id w).manager.valueAt toId key = g.manager.valueAt toId key :=
    ShardManager.valueAt_commit_of_ne _ (Ne.symm hne)
  have hdeletes := Write.deletes_of_eq hvalue
  refine ⟨ShardManager.isSome_group_commit _ h.group, fun key => ?_, fun w' hw' => ?_,
    fun key hkey => ?_⟩
  · -- the old group loses exactly the key of the delete
    change (g.manager.commit id (.set w.key w.value 0 0)).valueAt id key =
      if key ∈ w.deletes ++ g.deleted then none else source key
    rw [ShardManager.valueAt_commit_set_zero _ hgroup, h.old, hvalue, hdeletes]
    by_cases heq : key = w.key <;> simp [heq]
  · rw [hnew]
    exact h.waits w' hw'
  · rw [hnew]
    -- and what is deleted there is in the new group, because the delete came behind the put
    rcases List.mem_append.mp hkey with hkey | hkey
    · rw [hdeletes] at hkey
      cases List.mem_singleton.mp hkey
      exact ⟨hlisted, hthere⟩
    · exact h.moved key hkey

theorem Moving.apply_put (h : g.Moving fromId toId source Listed) (hid : id ≠ fromId)
    (hput : w.value ≠ none) : (g.apply id w).Moving fromId toId source Listed := by
  refine ⟨ShardManager.isSome_group_commit _ h.group, fun key => ?_, fun w' hw' => ?_,
    fun key hkey => ?_⟩
  · change (g.manager.commit id w.command).valueAt fromId key =
      if key ∈ w.deletes ++ g.deleted then none else source key
    rw [ShardManager.valueAt_commit_of_ne _ (Ne.symm hid), Write.deletes_of_ne hput]
    exact h.old key
  · obtain ⟨hvalue, hlisted, hthere⟩ := h.waits w' hw'
    exact ⟨hvalue, hlisted, isSome_valueAt_apply hput hthere⟩
  · change key ∈ w.deletes ++ g.deleted at hkey
    rw [Write.deletes_of_ne hput] at hkey
    obtain ⟨hlisted, hthere⟩ := h.moved key hkey
    exact ⟨hlisted, isSome_valueAt_apply hput hthere⟩

theorem Moving.dequeue (h : g.Moving fromId toId source Listed) {ws : List Write} (id : Nat)
    (hsub : ws ⊆ g.pending id) : (g.setPending id ws).Moving fromId toId source Listed := by
  refine ⟨h.group, h.old, fun w hw => h.waits w ?_, h.moved⟩
  rw [mem_pending_setPending] at hw
  split at hw
  · next heq => exact heq ▸ hsub hw
  · exact hw

theorem Moving.late (hne : fromId ≠ toId) (ht : g.Tallied fromId n source)
    (h : g.Moving fromId toId source Listed) (id : Nat) :
    (g.late id).Moving fromId toId source Listed := by
  unfold Groups.late
  split
  next => exact h
  next w ws hpending =>
    have hmem : w ∈ g.pending id := hpending ▸ List.mem_cons_self
    have hrest := h.dequeue id fun w' hw' => hpending ▸ List.mem_cons_of_mem w hw'
    by_cases hid : id = fromId
    · obtain ⟨hvalue, hlisted, hthere⟩ := h.waits w (hid ▸ hmem)
      exact hrest.apply_delete hne ht.group ⟨hid, hvalue, hlisted, hthere⟩
    · exact hrest.apply_put hid (ht.others id hid w hmem)

theorem Moving.lost (h : g.Moving fromId toId source Listed) (id i : Nat) :
    (g.lost id i).Moving fromId toId source Listed := by
  unfold Groups.lost
  split
  next => exact h
  next w _ =>
    have hrest : (g.setPending id ((g.pending id).eraseIdx i)).Moving fromId toId source Listed :=
      h.dequeue id List.eraseIdx_subset
    exact ⟨hrest.group, hrest.old, hrest.waits, hrest.moved⟩

/-- A key that the new group has, it keeps. -/
theorem isSome_valueAt_late (hne : fromId ≠ toId) (ht : g.Tallied fromId n source)
    (h : (g.manager.valueAt toId key).isSome) (id : Nat) :
    ((g.late id).manager.valueAt toId key).isSome := by
  unfold late
  split
  next => exact h
  next w ws hpending =>
    by_cases hid : id = fromId
    · have hto : toId ≠ id := hid ▸ Ne.symm hne
      exact (ShardManager.valueAt_commit_of_ne (g.setPending id ws).manager hto).symm ▸ h
    · have hput := ht.others id hid w (hpending ▸ List.mem_cons_self)
      exact isSome_valueAt_apply hput h

theorem valueAt_lost (g : Groups) (id i id' : Nat) (key : Bytes) :
    (g.lost id i).manager.valueAt id' key = g.manager.valueAt id' key := by
  unfold lost
  split <;> rfl

/-- All that waits is applied, and the new group keeps what it has. -/
theorem Moving.settle (hne : fromId ≠ toId) (ht : g.Tallied fromId n source)
    (h : g.Moving fromId toId source Listed) (id : Nat) :
    (g.settle id).Tallied fromId n source ∧ (g.settle id).Moving fromId toId source Listed ∧
      ∀ key, (g.manager.valueAt toId key).isSome →
        ((g.settle id).manager.valueAt toId key).isSome := by
  refine settle_induction (P := fun g' => g'.Tallied fromId n source ∧
    g'.Moving fromId toId source Listed ∧ ∀ key, (g.manager.valueAt toId key).isSome →
      (g'.manager.valueAt toId key).isSome) (fun g' h' => ?_) ⟨ht, h, fun _ hkey => hkey⟩
  obtain ⟨ht', hm', hkeeps⟩ := h'
  exact ⟨ht'.late id, hm'.late hne ht' id,
    fun key hkey => isSome_valueAt_late hne ht' (hkeeps key hkey) id⟩

theorem Moving.propose_put (hne : fromId ≠ toId) (ht : g.Tallied fromId n source)
    (h : g.Moving fromId toId source Listed) (key value : Bytes) (o : Outcome) :
    (g.propose toId ⟨key, some value⟩ o).Moving fromId toId source Listed := by
  cases o with
  | notLeader => exact ⟨h.group, h.old, h.waits, h.moved⟩
  | applied =>
      obtain ⟨-, hm, -⟩ := h.settle hne ht toId
      exact hm.apply_put (Ne.symm hne) (fun hnone => by cases hnone)
  | timedOut =>
      refine ⟨h.group, h.old, fun w hw => h.waits w ?_, h.moved⟩
      rw [propose, mem_pending_setPending, if_neg hne] at hw
      exact hw

theorem Moving.propose_delete (hne : fromId ≠ toId) (ht : g.Tallied fromId n source)
    (h : g.Moving fromId toId source Listed) (hlisted : Listed key)
    (hthere : (g.manager.valueAt toId key).isSome) (o : Outcome) :
    (g.propose fromId ⟨key, none⟩ o).Moving fromId toId source Listed := by
  cases o with
  | notLeader => exact ⟨h.group, h.old, h.waits, h.moved⟩
  | applied =>
      obtain ⟨ht', hm, hkeeps⟩ := h.settle hne ht fromId
      exact hm.apply_delete hne ht'.group ⟨rfl, rfl, hlisted, hkeeps key hthere⟩
  | timedOut =>
      refine ⟨h.group, h.old, fun w hw => ?_, h.moved⟩
      rw [propose, mem_pending_setPending, if_pos rfl] at hw
      rcases List.mem_append.mp hw with hw | hw
      · exact h.waits w hw
      · cases List.mem_singleton.mp hw
        exact ⟨rfl, hlisted, hthere⟩

/-- A put that is applied has reached its group. -/
theorem valueAt_propose_applied (hgroup : (g.manager.group id).isSome) (key value : Bytes) :
    ((g.propose id ⟨key, some value⟩ .applied).manager.valueAt id key).isSome := by
  have hsettled : ((g.settle id).manager.group id).isSome := by
    refine settle_induction (P := fun g => (g.manager.group id).isSome) (fun g hg => ?_) hgroup
    unfold late
    split
    · exact hg
    · exact ShardManager.isSome_group_commit _ hg
  have hvalue : ((g.settle id).manager.commit id (.set key (some value) 0 0)).valueAt id key =
      some value := (ShardManager.valueAt_commit_set_zero _ hsettled).trans (if_pos rfl)
  exact Option.isSome_iff_exists.mpr ⟨value, hvalue⟩

/-! ## Deletes that are applied in time -/

/-- All deletes so far were applied in time: the group has nothing left of them. -/
structure Prompt (fromId : Nat) (deleted : List Bytes) (g : Groups) : Prop where
  pending : g.pending fromId = []
  missed : g.missed = []
  deleted : g.deleted = deleted

variable {deleted : List Bytes}

theorem Prompt.apply_put (h : g.Prompt fromId deleted) (hput : w.value ≠ none) :
    (g.apply id w).Prompt fromId deleted := by
  refine ⟨h.pending, h.missed, ?_⟩
  rw [← h.deleted, apply, Write.deletes_of_ne hput]
  rfl

theorem Prompt.setPending (h : g.Prompt fromId deleted) (hid : id ≠ fromId) (ws : List Write) :
    (g.setPending id ws).Prompt fromId deleted := by
  refine ⟨?_, h.missed, h.deleted⟩
  change Function.update g.pending id ws fromId = []
  rw [Function.update_of_ne (Ne.symm hid), h.pending]

theorem Prompt.late (ht : g.Tallied fromId n source) (h : g.Prompt fromId deleted) (id : Nat) :
    (g.late id).Prompt fromId deleted := by
  unfold Groups.late
  split
  next => exact h
  next w ws hpending =>
    have hid : id ≠ fromId := fun heq => by
      rw [heq, h.pending] at hpending
      cases hpending
    have hput := ht.others id hid w (hpending ▸ List.mem_cons_self)
    exact (h.setPending hid ws).apply_put hput

theorem Prompt.lost (ht : g.Tallied fromId n source) (h : g.Prompt fromId deleted) (id i : Nat) :
    (g.lost id i).Prompt fromId deleted := by
  unfold Groups.lost
  split
  next => exact h
  next w hw =>
    have hmem := List.mem_of_getElem? hw
    have hid : id ≠ fromId := fun heq => by
      rw [heq, h.pending] at hmem
      cases hmem
    have hrest := h.setPending hid ((g.pending id).eraseIdx i)
    refine ⟨hrest.pending, ?_, hrest.deleted⟩
    rw [miss, Write.deletes_of_ne (ht.others id hid w hmem)]
    exact hrest.missed

theorem Prompt.propose_put (hne : fromId ≠ toId) (ht : g.Tallied fromId n source)
    (h : g.Prompt fromId deleted) (key value : Bytes) (o : Outcome) :
    (g.propose toId ⟨key, some value⟩ o).Prompt fromId deleted := by
  cases o with
  | notLeader => exact ⟨h.pending, h.missed, h.deleted⟩
  | applied =>
      have hsettled : (g.settle toId).Tallied fromId n source ∧
          (g.settle toId).Prompt fromId deleted :=
        settle_induction (P := fun g => g.Tallied fromId n source ∧ g.Prompt fromId deleted)
          (fun _ hg => ⟨hg.1.late toId, hg.2.late hg.1 toId⟩) ⟨ht, h⟩
      exact hsettled.2.apply_put (fun hnone => by cases hnone)
  | timedOut => exact h.setPending (Ne.symm hne) _

theorem Prompt.propose_delete (h : g.Prompt fromId deleted) (key : Bytes) :
    (g.propose fromId ⟨key, none⟩ .applied).Prompt fromId (key :: deleted) := by
  have hsettled : g.settle fromId = g := by rw [settle, h.pending]; rfl
  rw [propose, hsettled]
  exact ⟨h.pending, h.missed, congrArg (key :: ·) h.deleted⟩

end Groups

/-! ## The call -/

namespace Migration

/-- Where `migrateRange` stands. -/
inductive Stage
  /-- before the groups are looked up -/
  | check (keys : List Bytes)
  | loop (phase : Phase)
  | returned
  deriving DecidableEq

/-- The keys it still has to do with. -/
def Stage.keys : Stage → List Bytes
  | .check keys | .loop (.scan keys) => keys
  | .loop (.copy key _ rest) | .loop (.delete key rest) => key :: rest
  | .returned => []

/-- What is known of the current key: the old group had it, and after the put the
new one has it. -/
def Stage.Knows (old new : Bytes → Option Bytes) : Stage → Prop
  | .loop (.copy key _ _) => (old key).isSome
  | .loop (.delete key _) => (old key).isSome ∧ (new key).isSome
  | _ => True

theorem Stage.Knows.mono {old new new' : Bytes → Option Bytes} {stage : Stage}
    (h : stage.Knows old new) (hnew : ∀ key, (new key).isSome → (new' key).isSome) :
    stage.Knows old new' := by
  cases stage with
  | check | returned => trivial
  | loop phase =>
      cases phase with
      | scan => trivial
      | copy => exact h
      | delete key rest => exact ⟨h.1, hnew key h.2⟩

/-- Whether a key is copied and not yet counted. -/
def Stage.open : Stage → Nat
  | .loop (.delete ..) => 1
  | _ => 0

inductive Action
  /-- the groups are there; does this process lead the old one? -/
  | check (leads : Bool)
  /-- on to the next key, or back to the caller -/
  | next
  /-- the put or the delete of the current key -/
  | propose (outcome : Groups.Outcome)
  /-- a group applies a write that waits -/
  | late (id : Nat)
  /-- a write that waits gets lost -/
  | lost (id i : Nat)
  deriving DecidableEq

end Migration

structure Migration where
  groups : Groups
  stage : Migration.Stage
  moved : Nat
  /-- the keys whose put was applied in time -/
  copied : List Bytes

namespace Migration

def start (manager : ShardManager) (keys : List Bytes) : Migration :=
  ⟨⟨manager, fun _ => [], [], []⟩, .check keys, 0, []⟩

/-- A step of `migrateRange(fromId, toId, keys)` or of one of the groups, up to the
return. -/
def step (fromId toId : Nat) (s : Migration) : Action → Option Migration
  | .check leads =>
      match s.stage with
      | .check keys =>
          -- `migrateRange` returns 0 without both groups or on a follower
          if (s.groups.manager.group fromId).isNone ∨ (s.groups.manager.group toId).isNone ∨
              leads = false then
            some { s with stage := .returned }
          else some { s with stage := .loop (.scan keys) }
      | _ => none
  | .next =>
      match s.stage with
      | .loop (.scan []) => some { s with stage := .returned }
      | .loop (.scan (key :: rest)) =>
          -- keys of other shards stay where they are
          if s.groups.manager.shardFor key ≠ toId then some { s with stage := .loop (.scan rest) }
          else match s.groups.manager.valueAt fromId key with
            | none => some { s with stage := .loop (.scan rest) }
            | some value => some { s with stage := .loop (.copy key value rest) }
      | _ => none
  | .propose outcome =>
      match s.stage with
      | .loop (.copy key value rest) =>
          let groups := s.groups.propose toId ⟨key, some value⟩ outcome
          if outcome = .applied then
            some { s with groups, stage := .loop (.delete key rest), copied := key :: s.copied }
          else some { s with groups, stage := .loop (.scan rest) }
      | .loop (.delete key rest) =>
          -- whatever comes of the delete, the key counts
          some { s with
            groups := s.groups.propose fromId ⟨key, none⟩ outcome
            stage := .loop (.scan rest)
            moved := s.moved + 1 }
      | _ => none
  | .late id =>
      if s.stage = .returned then none else some { s with groups := s.groups.late id }
  | .lost id i =>
      if s.stage = .returned then none else some { s with groups := s.groups.lost id i }

variable {fromId toId : Nat} {s t : Migration} {a : Action} {source : Bytes → Option Bytes}
  {keys : List Bytes}

/-- Where nothing waits and every call is answered by `applied`, this is the loop
of `Migrating`. -/
theorem step_migrate {phase phase' : Phase} (hs : s.stage = .loop phase)
    (ht : t.stage = .loop phase') (hpending : ∀ id, s.groups.pending id = [])
    (ha : a = .next ∨ a = .propose .applied) (hstep : s.step fromId toId a = some t)
    (latest : Bytes → Option Bytes) :
    (Migrating.mk s.groups.manager fromId toId phase s.moved latest).step .migrate =
      some ⟨t.groups.manager, fromId, toId, phase', t.moved, latest⟩ := by
  -- nothing is left over from earlier writes, so each outcome is that of the write itself
  have hsettle (id : Nat) : s.groups.settle id = s.groups := by
    rw [Groups.settle, hpending]
    rfl
  unfold step at hstep
  unfold Migrating.step
  -- reading the next key, then the two writes
  rcases ha with rfl | rfl
  · cases phase with
    | scan keys =>
        cases keys with
        | nil =>
            simp only [hs] at hstep
            cases hstep
            cases ht
        | cons key rest =>
            simp only [hs] at hstep ⊢
            split at hstep
            next hroute =>
              cases hstep
              cases ht
              rw [if_pos hroute]
            next hroute =>
              rw [if_neg hroute]
              cases hvalue : s.groups.manager.valueAt fromId key with
              | none | some =>
                  simp only [hvalue] at hstep ⊢
                  cases hstep
                  cases ht
                  rfl
    | copy | delete =>
        simp only [hs] at hstep
        cases hstep
  · cases phase with
    | scan keys =>
        simp only [hs] at hstep
        cases hstep
    | copy key value rest =>
        simp only [hs, if_true] at hstep
        cases hstep
        cases ht
        simp only [Groups.propose, hsettle]
        rfl
    | delete key rest =>
        simp only [hs] at hstep
        cases hstep
        cases ht
        simp only [Groups.propose, hsettle]
        rfl

/-- How far the return is away. -/
def Stage.work : Stage → Nat
  | .check keys => 3 * keys.length + 2
  | .loop (.scan keys) => 3 * keys.length + 1
  | .loop (.copy _ _ rest) => 3 * rest.length + 3
  | .loop (.delete _ rest) => 3 * rest.length + 2
  | .returned => 0

/-- `migrateRange` is never stuck, and comes nearer to its return whatever its calls
come to. -/
theorem exists_step (fromId toId : Nat) (hstage : s.stage ≠ .returned) (leads : Bool)
    (outcome : Groups.Outcome) :
    ∃ a ∈ [Action.check leads, .next, .propose outcome], ∃ t, s.step fromId toId a = some t ∧
      t.stage.work < s.stage.work := by
  obtain ⟨groups, stage, moved, copied⟩ := s
  cases stage with
  | returned => exact absurd rfl hstage
  | check keys =>
      refine ⟨.check leads, by simp, ?_⟩
      simp only [step]
      split
      · exact ⟨_, rfl, Nat.succ_pos _⟩
      · exact ⟨_, rfl, Nat.lt_succ_self _⟩
  | loop phase =>
      cases phase with
      | scan keys =>
          refine ⟨.next, by simp, ?_⟩
          cases keys with
          | nil => exact ⟨_, rfl, Nat.succ_pos _⟩
          | cons key rest =>
              simp only [step]
              split
              · refine ⟨_, rfl, ?_⟩
                simp only [Stage.work, List.length_cons]
                omega
              · split <;> refine ⟨_, rfl, ?_⟩ <;> simp only [Stage.work, List.length_cons] <;> omega
      | copy key value rest =>
          refine ⟨.propose outcome, by simp, ?_⟩
          -- a put that is not applied gives the key up
          simp only [step]
          split <;> refine ⟨_, rfl, ?_⟩ <;> simp only [Stage.work] <;> omega
      | delete key rest =>
          exact ⟨.propose outcome, by simp, _, rfl, Nat.lt_succ_self _⟩

/-- So every call can be followed to its return. -/
theorem exists_return (fromId toId : Nat) (s : Migration) :
    ∃ t, Run (step fromId toId) (fun _ _ => True) s t ∧ t.stage = .returned := by
  by_cases hstage : s.stage = .returned
  · exact ⟨s, .refl s, hstage⟩
  · obtain ⟨a, -, t, hstep, hlt⟩ := exists_step fromId toId hstage true .applied
    obtain ⟨u, r, hreturned⟩ := exists_return fromId toId t
    exact ⟨u, (Run.single trivial hstep).trans r, hreturned⟩
termination_by s.stage.work

/-- What a step does. -/
inductive Takes (fromId toId : Nat) (s : Migration) : Action → Migration → Prop
  | returns (a : Action) (hopen : s.stage.open = 0) :
      Takes fromId toId s a { s with stage := .returned }
  | scan (a : Action) (rest : List Bytes) (hopen : s.stage.open = 0)
      (hsub : rest ⊆ s.stage.keys) : Takes fromId toId s a { s with stage := .loop (.scan rest) }
  | read (key value : Bytes) (rest : List Bytes) (hstage : s.stage = .loop (.scan (key :: rest)))
      (hvalue : s.groups.manager.valueAt fromId key = some value) :
      Takes fromId toId s .next { s with stage := .loop (.copy key value rest) }
  | copies (key value : Bytes) (rest : List Bytes)
      (hstage : s.stage = .loop (.copy key value rest)) :
      Takes fromId toId s (.propose .applied) { s with
        groups := s.groups.propose toId ⟨key, some value⟩ .applied
        stage := .loop (.delete key rest)
        copied := key :: s.copied }
  | givesUp (key value : Bytes) (rest : List Bytes) (outcome : Groups.Outcome)
      (hstage : s.stage = .loop (.copy key value rest)) :
      Takes fromId toId s (.propose outcome) { s with
        groups := s.groups.propose toId ⟨key, some value⟩ outcome
        stage := .loop (.scan rest) }
  | deletes (key : Bytes) (rest : List Bytes) (outcome : Groups.Outcome)
      (hstage : s.stage = .loop (.delete key rest)) :
      Takes fromId toId s (.propose outcome) { s with
        groups := s.groups.propose fromId ⟨key, none⟩ outcome
        stage := .loop (.scan rest)
        moved := s.moved + 1 }
  | late (id : Nat) : Takes fromId toId s (.late id) { s with groups := s.groups.late id }
  | lost (id i : Nat) : Takes fromId toId s (.lost id i) { s with groups := s.groups.lost id i }

theorem takes_of_step (h : s.step fromId toId a = some t) : Takes fromId toId s a t := by
  unfold step at h
  cases a with
  | check leads =>
      simp only at h
      split at h
      next keys hstage =>
        have hopen : s.stage.open = 0 := by rw [hstage]; rfl
        split at h <;> cases h
        · exact .returns _ hopen
        · exact .scan _ keys hopen (by rw [hstage]; exact List.Subset.refl keys)
      next => cases h
  | next =>
      simp only at h
      split at h
      next hstage =>
        cases h
        exact .returns _ (by rw [hstage]; rfl)
      next key rest hstage =>
        have hopen : s.stage.open = 0 := by rw [hstage]; rfl
        have hsub : rest ⊆ s.stage.keys := by rw [hstage]; exact List.subset_cons_self key rest
        split at h
        next =>
          cases h
          exact .scan _ rest hopen hsub
        next =>
          split at h <;> cases h
          · exact .scan _ rest hopen hsub
          · next value hvalue => exact .read key value rest hstage hvalue
      next => cases h
  | propose outcome =>
      simp only at h
      split at h
      next key value rest hstage =>
        -- only an applied put is followed by the delete
        split at h
        next heq =>
          cases h
          rw [heq]
          exact .copies key value rest hstage
        next =>
          cases h
          exact .givesUp key value rest outcome hstage
      next key rest hstage =>
        -- and the delete ends the key whatever comes of it
        cases h
        exact .deletes key rest outcome hstage
      next => cases h
  | late id =>
      simp only at h
      split at h <;> cases h
      exact .late id
  | lost id i =>
      simp only at h
      split at h <;> cases h
      exact .lost id i

/-- The books on the deletes, and the keys that were copied. -/
structure Tallied (fromId : Nat) (source : Bytes → Option Bytes) (s : Migration) : Prop where
  deletes : s.groups.Tallied fromId s.moved source
  copied : s.copied.length = s.moved + s.stage.open

theorem Tallied.takes (h : s.Tallied fromId source) (ht : Takes fromId toId s a t) :
    t.Tallied fromId source := by
  obtain ⟨hdeletes, hcopied⟩ := h
  cases ht with
  | returns _ hopen => exact ⟨hdeletes, by rwa [hopen] at hcopied⟩
  | scan _ rest hopen => exact ⟨hdeletes, by rwa [hopen] at hcopied⟩
  | read key value rest hstage => exact ⟨hdeletes, by rwa [hstage] at hcopied⟩
  | copies key value rest hstage =>
      rw [hstage] at hcopied
      exact ⟨hdeletes.propose_put toId key value .applied, congrArg (· + 1) hcopied⟩
  | givesUp key value rest outcome hstage =>
      rw [hstage] at hcopied
      exact ⟨hdeletes.propose_put toId key value outcome, hcopied⟩
  | deletes key rest outcome hstage =>
      rw [hstage] at hcopied
      exact ⟨hdeletes.propose_delete key outcome, hcopied⟩
  | late id => exact ⟨hdeletes.late id, hcopied⟩
  | lost id i => exact ⟨hdeletes.lost id i, hcopied⟩

/-- Between two groups, with what `migrateRange` knows of the current key. -/
structure Moving (fromId toId : Nat) (source : Bytes → Option Bytes) (keys : List Bytes)
    (s : Migration) : Prop where
  groups : s.groups.Moving fromId toId source fun key => key ∈ keys ∧ (source key).isSome
  ahead : s.stage.keys ⊆ keys
  current : s.stage.Knows source (s.groups.manager.valueAt toId)

theorem Moving.takes (hne : fromId ≠ toId) (htallied : s.Tallied fromId source)
    (h : s.Moving fromId toId source keys) (ht : Takes fromId toId s a t) :
    t.Moving fromId toId source keys := by
  obtain ⟨hgroups, hahead, hcurrent⟩ := h
  have htally := htallied.deletes
  cases ht with
  | returns => exact ⟨hgroups, List.nil_subset keys, trivial⟩
  | scan _ rest _ hsub => exact ⟨hgroups, List.Subset.trans hsub hahead, trivial⟩
  | read key value rest hstage hvalue =>
      rw [hstage] at hahead
      -- what is still in the old group was not deleted
      rw [hgroups.old] at hvalue
      split at hvalue
      · cases hvalue
      · exact ⟨hgroups, hahead, Option.isSome_iff_exists.mpr ⟨value, hvalue⟩⟩
  | copies key value rest hstage =>
      rw [hstage] at hahead hcurrent
      -- the put is in the new group before the delete can be proposed
      exact ⟨hgroups.propose_put hne htally key value .applied, hahead, hcurrent,
        Groups.valueAt_propose_applied hgroups.group key value⟩
  | givesUp key value rest outcome hstage =>
      rw [hstage] at hahead
      exact ⟨hgroups.propose_put hne htally key value outcome,
        (List.cons_subset.mp hahead).2, trivial⟩
  | deletes key rest outcome hstage =>
      rw [hstage] at hahead hcurrent
      obtain ⟨hlisted, hrest⟩ := List.cons_subset.mp hahead
      exact ⟨hgroups.propose_delete hne htally ⟨hlisted, hcurrent.1⟩ hcurrent.2 outcome, hrest,
        trivial⟩
  | late id =>
      exact ⟨hgroups.late hne htally id, hahead,
        hcurrent.mono fun _ hkey => Groups.isSome_valueAt_late hne htally hkey id⟩
  | lost id i =>
      refine ⟨hgroups.lost id i, hahead, hcurrent.mono fun key hkey => ?_⟩
      rwa [Groups.valueAt_lost]

/-! ## The return -/

/-- The keys of the list that the old group had and that are now in the new one
only, each counted once. -/
def relocated (before after : ShardManager) (fromId toId : Nat) (keys : List Bytes) : List Bytes :=
  keys.dedup.filter fun key => (before.valueAt fromId key).isSome &&
    (after.valueAt fromId key).isNone && (after.valueAt toId key).isSome

/-- What `migrateRange` owes its caller: no key of the list is gone, and the count
is the number of keys that are now in the new group only. -/
structure Accounts (before after : ShardManager) (fromId toId : Nat) (keys : List Bytes)
    (moved : Nat) : Prop where
  kept : ∀ key ∈ keys, (before.valueAt fromId key).isSome →
    (after.valueAt fromId key).isSome ∨ (after.valueAt toId key).isSome
  count : moved = (relocated before after fromId toId keys).length

variable {manager : ShardManager}

theorem tallied_of_run (hfrom : (manager.group fromId).isSome)
    (r : Run (step fromId toId) (fun _ _ => True) (start manager keys) t) :
    t.Tallied fromId (manager.valueAt fromId) := by
  refine r.invariant ⟨⟨hfrom, rfl, (fun _ _ _ hw => by cases hw), fun _ hkey _ => hkey⟩, rfl⟩ ?_
  exact fun _ _ _ h _ hstep => h.takes (takes_of_step hstep)

theorem moving_of_run (hne : fromId ≠ toId) (hfrom : (manager.group fromId).isSome)
    (hto : (manager.group toId).isSome)
    (r : Run (step fromId toId) (fun _ _ => True) (start manager keys) t) :
    t.Moving fromId toId (manager.valueAt fromId) keys := by
  have hstart : (start manager keys).Moving fromId toId (manager.valueAt fromId) keys :=
    ⟨⟨hto, fun _ => rfl, (fun _ hw => by cases hw), (fun _ hkey => by cases hkey)⟩,
      List.Subset.refl keys, trivial⟩
  induction r with
  | refl => exact hstart
  | snoc r _ hstep ih => exact ih.takes hne (tallied_of_run hfrom r) (takes_of_step hstep)

/-- Where no put was applied in time, nothing is deleted. -/
theorem Tallied.of_copied_eq_nil (h : s.Tallied fromId source) (hcopied : s.copied = []) :
    s.moved = 0 ∧ s.groups.deleted = [] := by
  have htotal := h.deletes.total
  have hopen := h.copied
  rw [hcopied, List.length_nil] at hopen
  exact ⟨by omega, List.length_eq_zero_iff.mp (by omega)⟩

/-- In one group no key is in the new one only. -/
theorem relocated_self (before after : ShardManager) (id : Nat) (keys : List Bytes) :
    relocated before after id id keys = [] := by
  refine List.filter_eq_nil_iff.mpr fun key _ => ?_
  cases after.valueAt id key <;> simp

/-- Between two groups the keys that moved are those that were deleted. -/
theorem Moving.relocated_perm (h : t.Moving fromId toId (manager.valueAt fromId) keys) :
    (relocated manager t.groups.manager fromId toId keys).Perm t.groups.deleted.dedup := by
  refine (List.perm_ext_iff_of_nodup (keys.nodup_dedup.filter _)
    t.groups.deleted.nodup_dedup).mpr fun key => ?_
  rw [List.mem_filter, List.mem_dedup, List.mem_dedup, h.groups.old]
  constructor
  · rintro ⟨-, hkey⟩
    by_contra hnot
    rw [if_neg hnot] at hkey
    cases hsource : manager.valueAt fromId key <;> simp [hsource] at hkey
  · intro hdeleted
    obtain ⟨⟨hlisted, hsource⟩, hthere⟩ := h.groups.moved key hdeleted
    exact ⟨hlisted, by simp [hsource, hthere, hdeleted]⟩

/-- Between two groups no key is lost. -/
theorem Moving.kept (h : t.Moving fromId toId (manager.valueAt fromId) keys) {key : Bytes}
    (hkey : (manager.valueAt fromId key).isSome) :
    (t.groups.manager.valueAt fromId key).isSome ∨
      (t.groups.manager.valueAt toId key).isSome := by
  by_cases hdeleted : key ∈ t.groups.deleted
  · exact .inr (h.groups.moved key hdeleted).2
  · rw [h.groups.old, if_neg hdeleted]
    exact .inl hkey

/-- The count between two groups. -/
theorem Moving.count_iff (h : t.Moving fromId toId (manager.valueAt fromId) keys)
    (htallied : t.Tallied fromId (manager.valueAt fromId)) :
    t.moved = (relocated manager t.groups.manager fromId toId keys).length ↔
      t.groups.deleted.Nodup ∧ t.groups.pending fromId = [] ∧ t.groups.missed = [] := by
  have hwaiting : (t.groups.waiting fromId).length = (t.groups.pending fromId).length := by
    rw [Groups.waiting, List.length_flatMap]
    have hone : ∀ w ∈ t.groups.pending fromId, w.deletes.length = 1 := fun w hw => by
      rw [Write.deletes_of_eq (h.groups.waits w hw).1, List.length_singleton]
    rw [List.map_congr_left hone]
    simp
  have htotal := htallied.deletes.total
  have hle := t.groups.deleted.dedup_sublist.length_le
  rw [h.relocated_perm.length_eq, ← List.length_eq_zero_iff, ← List.length_eq_zero_iff,
    ← List.dedup_eq_self]
  constructor
  · intro hcount
    exact ⟨t.groups.deleted.dedup_sublist.eq_of_length (by omega), by omega, by omega⟩
  · rintro ⟨hnodup, hpending, hmissed⟩
    rw [hnodup]
    omega

/-! ## Calls that are answered in time -/

/-- A delete is accepted and applied in time. -/
def Timely (s : Migration) (a : Action) : Prop :=
  ∀ key rest outcome, s.stage = .loop (.delete key rest) → a = .propose outcome →
    outcome = .applied

/-- The current key has not been deleted. -/
def Stage.Fresh (deleted : List Bytes) : Stage → Prop
  | .loop (.copy key _ _) | .loop (.delete key _) => key ∉ deleted
  | _ => True

structure Prompt (fromId : Nat) (s : Migration) : Prop where
  groups : s.groups.Prompt fromId s.groups.deleted
  nodup : s.groups.deleted.Nodup
  fresh : s.stage.Fresh s.groups.deleted

theorem Prompt.takes (hne : fromId ≠ toId) (htallied : s.Tallied fromId source)
    (hmoving : s.Moving fromId toId source keys) (h : s.Prompt fromId) (hok : s.Timely a)
    (ht : Takes fromId toId s a t) : t.Prompt fromId := by
  obtain ⟨hgroups, hnodup, hfresh⟩ := h
  have htally := htallied.deletes
  have hkeep {g : Groups} {stage : Stage} {moved : Nat} {copied : List Bytes}
      (hg : g.Prompt fromId s.groups.deleted) (hstage : stage.Fresh s.groups.deleted) :
      Prompt fromId ⟨g, stage, moved, copied⟩ := by
    have heq := hg.deleted
    exact ⟨⟨hg.pending, hg.missed, rfl⟩, heq ▸ hnodup, heq ▸ hstage⟩
  cases ht with
  | returns => exact hkeep hgroups trivial
  | scan => exact hkeep hgroups trivial
  | read key value rest _ hvalue =>
      -- a key that was deleted is not found again
      refine hkeep hgroups fun hdeleted => ?_
      rw [hmoving.groups.old, if_pos hdeleted] at hvalue
      cases hvalue
  | copies key value rest hstage =>
      rw [hstage] at hfresh
      exact hkeep (hgroups.propose_put hne htally key value .applied) hfresh
  | givesUp key value rest outcome =>
      exact hkeep (hgroups.propose_put hne htally key value outcome) trivial
  | deletes key rest outcome hstage =>
      -- the condition leaves only the delete that is applied at once
      cases hok key rest outcome hstage rfl
      rw [hstage] at hfresh
      have hdeleted := hgroups.propose_delete key
      have heq := hdeleted.deleted
      exact ⟨⟨hdeleted.pending, hdeleted.missed, rfl⟩, heq ▸ hnodup.cons hfresh, trivial⟩
  | late id => exact hkeep (hgroups.late htally id) hfresh
  | lost id i => exact hkeep (hgroups.lost htally id i) hfresh

theorem prompt_of_run (hne : fromId ≠ toId) (hfrom : (manager.group fromId).isSome)
    (hto : (manager.group toId).isSome)
    (r : Run (step fromId toId) Timely (start manager keys) t) : t.Prompt fromId := by
  induction r with
  | refl => exact ⟨⟨rfl, rfl, rfl⟩, List.nodup_nil, trivial⟩
  | snoc r hok hstep ih =>
      have hall : Run (step fromId toId) (fun _ _ => True) (start manager keys) _ :=
        r.mono fun _ _ _ => trivial
      exact ih.takes hne (tallied_of_run hfrom hall) (moving_of_run hne hfrom hto hall) hok
        (takes_of_step hstep)

/-- Between two groups, a call all of whose deletes are applied in time accounts for
whatever else fails. -/
theorem accounts_of_timely (hne : fromId ≠ toId) (hfrom : (manager.group fromId).isSome)
    (hto : (manager.group toId).isSome)
    (r : Run (step fromId toId) Timely (start manager keys) t) :
    Accounts manager t.groups.manager fromId toId keys t.moved := by
  have hall : Run (step fromId toId) (fun _ _ => True) (start manager keys) t :=
    r.mono fun _ _ _ => trivial
  have hmoving := moving_of_run hne hfrom hto hall
  have hprompt := prompt_of_run hne hfrom hto r
  exact ⟨fun key _ => hmoving.kept, (hmoving.count_iff (tallied_of_run hfrom hall)).mpr
    ⟨hprompt.nodup, hprompt.groups.pending, hprompt.groups.missed⟩⟩

end Migration

/-- **When `migrateRange` accounts for its failures**: whatever its calls came to,
at its return no key is lost and the count is right exactly if no put was applied
in time, or the groups are two, all deletes have been applied, and none more than
once for a key. -/
theorem migration_accounts_iff {manager : ShardManager} {fromId toId : Nat} {keys : List Bytes}
    {t : Migration} (hfrom : (manager.group fromId).isSome) (hto : (manager.group toId).isSome)
    (r : Run (Migration.step fromId toId) (fun _ _ => True) (.start manager keys) t)
    (hreturned : t.stage = .returned) :
    Migration.Accounts manager t.groups.manager fromId toId keys t.moved ↔
      t.copied = [] ∨ fromId ≠ toId ∧ t.groups.deleted.Nodup ∧ t.groups.pending fromId = [] ∧
        t.groups.missed = [] := by
  have htallied := Migration.tallied_of_run hfrom r
  by_cases hne : fromId = toId
  · -- one group: no key is ever in the new one only
    subst hne
    constructor
    · intro h
      have hcopied := htallied.copied
      have hcount := h.count
      rw [Migration.relocated_self, List.length_nil] at hcount
      rw [hreturned, hcount] at hcopied
      exact .inl (List.length_eq_zero_iff.mp hcopied)
    · intro h
      obtain ⟨hmoved, hdeleted⟩ := htallied.of_copied_eq_nil (h.resolve_right fun h => h.1 rfl)
      refine ⟨fun key _ hkey => .inl (htallied.deletes.present key hkey ?_), ?_⟩
      · rw [hdeleted]
        exact List.not_mem_nil
      · rw [hmoved, Migration.relocated_self, List.length_nil]
  · -- two groups: the count is right exactly if each key that was copied is deleted once
    have hmoving := Migration.moving_of_run hne hfrom hto r
    have hcount := hmoving.count_iff htallied
    refine ⟨fun h => .inr ⟨hne, hcount.mp h.count⟩, fun h => ⟨fun key _ => hmoving.kept, ?_⟩⟩
    rcases h with hnone | ⟨-, hbooks⟩
    · obtain ⟨hmoved, hdeleted⟩ := htallied.of_copied_eq_nil hnone
      rw [hmoving.relocated_perm.length_eq, hmoved, hdeleted]
      rfl
    · exact hcount.mpr hbooks

/-- The key is copied and deleted in time. -/
theorem migration_accounts_iff_of_applied :
    let t := replay (Migration.step 4 5) (.start splitting.manager [[107]])
      [.check true, .next, .propose .applied, .propose .applied, .next]
    t.stage = .returned ∧ t.moved = 1 ∧
      Migration.Accounts splitting.manager t.groups.manager 4 5 [[107]] t.moved := by
  intro t
  have r : Run (Migration.step 4 5) (fun _ _ => True) (.start splitting.manager [[107]]) t :=
    run_replay (by decide +kernel)
  have hreturned : t.stage = .returned := by decide +kernel
  refine ⟨hreturned, by decide +kernel,
    (migration_accounts_iff splitting_ready.fromGroup splitting_ready.toGroup r hreturned).mpr
      (.inr ⟨by decide, ?_, ?_, ?_⟩)⟩ <;> decide +kernel

/-- Shard 5 alone, with the key 107. -/
def oneGroup : ShardManager :=
  (ShardManager.new 1).addShard 5 (.ofCommands [.set [107] (some [118]) 7 1])

/-- **`migrateRange` loses a key, and counts what it did not move.**  One group in
both roles deletes what it has just put.  A delete that is refused is counted, and
one that times out leaves its key to be counted again. -/
theorem migration_miscounts :
    let same := replay (Migration.step 5 5) (.start oneGroup [[107]])
      [.check true, .next, .propose .applied, .propose .applied, .next]
    let refused := replay (Migration.step 4 5) (.start splitting.manager [[107]])
      [.check true, .next, .propose .applied, .propose .notLeader, .next]
    let late := replay (Migration.step 4 5) (.start splitting.manager [[107], [107]])
      [.check true, .next, .propose .applied, .propose .timedOut, .next, .propose .applied,
        .propose .applied, .next]
    (Run (Migration.step 5 5) (fun _ _ => True) (.start oneGroup [[107]]) same ∧
        same.stage = .returned ∧ oneGroup.valueAt 5 [107] = some [118] ∧
        same.groups.manager.valueAt 5 [107] = none ∧
        ¬ Migration.Accounts oneGroup same.groups.manager 5 5 [[107]] same.moved) ∧
      (Run (Migration.step 4 5) (fun _ _ => True) (.start splitting.manager [[107]]) refused ∧
        refused.stage = .returned ∧ refused.moved = 1 ∧
        refused.groups.manager.valueAt 4 [107] = some [118] ∧
        ¬ Migration.Accounts splitting.manager refused.groups.manager 4 5 [[107]]
          refused.moved) ∧
      Run (Migration.step 4 5) (fun _ _ => True) (.start splitting.manager [[107], [107]]) late ∧
        late.stage = .returned ∧ late.moved = 2 ∧
        ¬ Migration.Accounts splitting.manager late.groups.manager 4 5 [[107], [107]]
          late.moved := by
  intro same refused late
  have hsame : same.moved ≠
      (Migration.relocated oneGroup same.groups.manager 5 5 [[107]]).length := by decide +kernel
  have hrefused : refused.moved ≠
      (Migration.relocated splitting.manager refused.groups.manager 4 5 [[107]]).length := by
    decide +kernel
  have hlate : late.moved ≠
      (Migration.relocated splitting.manager late.groups.manager 4 5 [[107], [107]]).length := by
    decide +kernel
  refine ⟨⟨run_replay (by decide +kernel), by decide +kernel, by decide +kernel, by decide +kernel,
      fun h => hsame h.count⟩,
    ⟨run_replay (by decide +kernel), by decide +kernel, by decide +kernel, by decide +kernel,
      fun h => hrefused h.count⟩,
    run_replay (by decide +kernel), by decide +kernel, by decide +kernel,
    fun h => hlate h.count⟩

end KvRaft
