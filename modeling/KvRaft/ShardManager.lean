import KvRaft.HashRing
import KvRaft.Run

/-!
# KvRaft.ShardManager

`ShardManager::migrateRange` of `shard/shard_manager.h` beside the requests of
clients.  The groups of both shards are led by this process and available, so a
group is its store, and a command that is proposed is applied.

The ring routes a key to its new shard from the moment that shard is added,
while its value stays in the old group until `migrateRange` has copied it.

* `Migrating` — the manager, where `migrateRange` stands, and for each key what
  was written to it last;
* `Migrating.InPlace` — where the last value of each key is;
* `migration_transparent` — clients read what was written last, if they leave a
  key alone until it is copied (`Migrating.Settled`);
* `copy_undoes_write` — otherwise a client misses a key, and a write is undone.
-/

namespace KvRaft

/-! ## Commands that set a key -/

/-- PUT, or DEL where there is no value. -/
def KvCommand.set (key : Bytes) (value : Option Bytes) (clientId requestSeq : Nat) : KvCommand :=
  match value with
  | some value => ⟨.put, key, value, [], clientId, requestSeq⟩
  | none => ⟨.del, key, [], [], clientId, requestSeq⟩

section

variable (sm : KvStore) (key key' : Bytes) (value : Option Bytes) (clientId requestSeq : Nat)

theorem KvStore.lookup_execute_set (data : AList fun _ : Bytes => Bytes) :
    (KvStore.execute data (.set key value clientId requestSeq)).1.lookup key' =
      if key' = key then value else data.lookup key' := by
  cases value with
  | none =>
      by_cases heq : key' = key
      · rw [if_pos heq, heq]
        exact AList.lookup_erase _ _
      · rw [if_neg heq]
        exact AList.lookup_erase_ne heq
  | some value =>
      by_cases heq : key' = key
      · rw [if_pos heq, heq]
        exact AList.lookup_insert _
      · rw [if_neg heq]
        exact AList.lookup_insert_ne heq

theorem KvStore.get_applyCommand_set :
    (sm.applyCommand (.set key value clientId requestSeq)).1.get key' =
      if sm.cached (.set key value clientId requestSeq) = none ∧ key' = key then value
      else sm.get key' := by
  unfold applyCommand
  cases hcached : sm.cached (.set key value clientId requestSeq) with
  | none =>
      change (execute sm.data (.set key value clientId requestSeq)).1.lookup key' = _
      rw [lookup_execute_set]
      simp only [true_and, get]
  | some result => simp only [reduceCtorEq, false_and, if_false]

/-- Commands without a client always execute. -/
theorem KvStore.cached_set_zero : sm.cached (.set key value 0 requestSeq) = none := by
  cases value <;> rfl

end

/-! ## The manager -/

structure ShardManager where
  ring : HashRing
  /-- the store of each group -/
  shards : AList fun _ : Nat => KvStore

namespace ShardManager

def new (vnodes : Int) : ShardManager := ⟨.new vnodes, ∅⟩

def addShard (m : ShardManager) (id : Nat) (sm : KvStore) : ShardManager :=
  ⟨m.ring.addShard id, m.shards.insert id sm⟩

def shardFor (m : ShardManager) (key : Bytes) : Nat := m.ring.shardFor key

def group (m : ShardManager) (id : Nat) : Option KvStore := m.shards.lookup id

/-- A command goes through the log of a group. -/
def commit (m : ShardManager) (id : Nat) (cmd : KvCommand) : ShardManager :=
  match m.group id with
  | none => m
  | some sm => { m with shards := m.shards.insert id (sm.applyCommand cmd).1 }

/-- What a group has for a key. -/
def valueAt (m : ShardManager) (id : Nat) (key : Bytes) : Option Bytes :=
  (m.group id).bind (·.get key)

section

variable (m : ShardManager) {id id' : Nat} {cmd : KvCommand} {key : Bytes}

@[simp] theorem commit_shardFor (id : Nat) (cmd : KvCommand) (key : Bytes) :
    (m.commit id cmd).shardFor key = m.shardFor key := by
  unfold commit
  split <;> rfl

theorem group_commit : (m.commit id cmd).group id' =
    if id' = id then (m.group id).map fun sm => (sm.applyCommand cmd).1 else m.group id' := by
  unfold commit
  split
  next hnone =>
    split
    · next heq => rw [heq, hnone]; rfl
    · rfl
  next sm hsome =>
    by_cases heq : id' = id
    · rw [if_pos heq, heq, hsome]
      exact AList.lookup_insert _
    · rw [if_neg heq]
      exact AList.lookup_insert_ne heq

theorem isSome_group_commit (h : (m.group id').isSome) : ((m.commit id cmd).group id').isSome := by
  rw [group_commit]
  split
  · next heq => rwa [Option.isSome_map, ← heq]
  · exact h

theorem valueAt_commit_of_ne (h : id' ≠ id) :
    (m.commit id cmd).valueAt id' key = m.valueAt id' key := by
  rw [valueAt, group_commit, if_neg h, valueAt]

/-- A write that its group carries out. -/
theorem valueAt_commit_set {sm : KvStore} (hgroup : m.group id = some sm) {key' : Bytes}
    {value : Option Bytes} {clientId seq : Nat} :
    (m.commit id (.set key' value clientId seq)).valueAt id key =
      if sm.cached (.set key' value clientId seq) = none ∧ key = key' then value
      else m.valueAt id key := by
  rw [valueAt, group_commit, if_pos rfl, valueAt, hgroup]
  exact KvStore.get_applyCommand_set sm key' key value clientId seq

theorem valueAt_commit_set_of_ne {key' : Bytes} (h : key ≠ key') {value : Option Bytes}
    {clientId seq : Nat} :
    (m.commit id (.set key' value clientId seq)).valueAt id' key = m.valueAt id' key := by
  by_cases heq : id' = id
  · subst heq
    cases hgroup : m.group id' with
    | none => rw [commit, hgroup]
    | some sm => rw [valueAt_commit_set m hgroup, if_neg fun hset => h hset.2]
  · exact valueAt_commit_of_ne m heq

/-- A write of `migrateRange`. -/
theorem valueAt_commit_set_zero (hgroup : (m.group id).isSome) {key' : Bytes}
    {value : Option Bytes} {seq : Nat} :
    (m.commit id (.set key' value 0 seq)).valueAt id key =
      if key = key' then value else m.valueAt id key := by
  obtain ⟨sm, hsm⟩ := Option.isSome_iff_exists.mp hgroup
  rw [valueAt_commit_set m hsm, KvStore.cached_set_zero]
  simp only [true_and]

end

end ShardManager

/-! ## A migration -/

/-- Where the loop of `migrateRange` stands. -/
inductive Phase
  /-- before the next key -/
  | scan (keys : List Bytes)
  /-- the value was read from the old group -/
  | copy (key value : Bytes) (rest : List Bytes)
  /-- the value was put into the new group -/
  | delete (key : Bytes) (rest : List Bytes)
  deriving DecidableEq

structure Migrating where
  manager : ShardManager
  fromId : Nat
  toId : Nat
  phase : Phase
  moved : Nat
  /-- what was written to a key last -/
  latest : Bytes → Option Bytes

namespace Migrating

inductive Action
  | get (key : Bytes)
  | put (key value : Bytes) (clientId seq : Nat)
  | del (key : Bytes) (clientId seq : Nat)
  /-- `migrateRange` goes on -/
  | migrate

/-- A client's write goes to the group of its key, and counts unless the group
recognises it as a repetition. -/
def write (s : Migrating) (key : Bytes) (value : Option Bytes) (clientId seq : Nat) : Migrating :=
  let id := s.manager.shardFor key
  let cmd := KvCommand.set key value clientId seq
  match s.manager.group id with
  | none => s
  | some sm =>
      { s with
        manager := s.manager.commit id cmd
        latest := if sm.cached cmd = none then Function.update s.latest key value else s.latest }

def step (s : Migrating) : Action → Option Migrating
  | .get _ => some s
  | .put key value clientId seq => some (s.write key (some value) clientId seq)
  | .del key clientId seq => some (s.write key none clientId seq)
  | .migrate =>
      match s.phase with
      | .scan [] => none
      | .scan (key :: rest) =>
          if s.manager.shardFor key ≠ s.toId then some { s with phase := .scan rest }
          else match s.manager.valueAt s.fromId key with
            | none => some { s with phase := .scan rest }
            | some value => some { s with phase := .copy key value rest }
      | .copy key value rest =>
          some { s with
            manager := s.manager.commit s.toId (.set key (some value) 0 0)
            phase := .delete key rest }
      | .delete key rest =>
          some { s with
            manager := s.manager.commit s.fromId (.set key none 0 0)
            phase := .scan rest
            moved := s.moved + 1 }

/-- What a GET returns. -/
def answer (s : Migrating) (key : Bytes) : Option Bytes :=
  s.manager.valueAt (s.manager.shardFor key) key

/-- The old value of the key is about to be deleted. -/
def Copied (s : Migrating) (key : Bytes) : Prop := ∃ rest, s.phase = .delete key rest

/-- The old group has nothing left to copy under this key. -/
def Released (s : Migrating) (key : Bytes) : Prop :=
  s.manager.valueAt s.fromId key = none ∨ s.Copied key

/-- A request meets a key that goes to the new group only when nothing is left to
copy. -/
def Settled (s : Migrating) : Action → Prop
  | .get key | .put key .. | .del key .. => s.manager.shardFor key = s.toId → s.Released key
  | .migrate => True

/-- Where `migrateRange` starts: both groups are there, and the last value of a
key of the new group is in the old one, unless that has none. -/
structure Ready (s : Migrating) : Prop where
  ne : s.fromId ≠ s.toId
  fromGroup : (s.manager.group s.fromId).isSome
  toGroup : (s.manager.group s.toId).isSome
  scans : ∃ keys, s.phase = .scan keys
  others : ∀ key, s.manager.shardFor key ≠ s.toId → s.answer key = s.latest key
  waiting : ∀ key, s.manager.shardFor key = s.toId → ∀ value,
    s.manager.valueAt s.fromId key = some value → s.latest key = some value
  released : ∀ key, s.manager.shardFor key = s.toId → s.manager.valueAt s.fromId key = none →
    s.answer key = s.latest key

/-! ## The last value of each key -/

/-- The last value of a key is in the group the ring names, or still waits in the
old one. -/
structure Keeps (s : Migrating) (key : Bytes) : Prop where
  settled : s.Settled (.get key) → s.answer key = s.latest key
  waiting : s.manager.shardFor key = s.toId → ¬s.Released key →
    s.manager.valueAt s.fromId key = s.latest key

structure InPlace (s : Migrating) : Prop where
  ne : s.fromId ≠ s.toId
  fromGroup : (s.manager.group s.fromId).isSome
  toGroup : (s.manager.group s.toId).isSome
  keeps : ∀ key, s.Keeps key
  copies : ∀ key value rest, s.phase = .copy key value rest →
    s.manager.shardFor key = s.toId ∧ s.manager.valueAt s.fromId key = some value
  deletes : ∀ key, s.Copied key → s.manager.shardFor key = s.toId

theorem not_copied_of_scan {s : Migrating} {keys : List Bytes} (h : s.phase = .scan keys)
    (key : Bytes) : ¬s.Copied key := fun ⟨_, hdelete⟩ => nomatch h.symm.trans hdelete

theorem not_copied_of_copy {s : Migrating} {key' value : Bytes} {rest : List Bytes}
    (h : s.phase = .copy key' value rest) (key : Bytes) : ¬s.Copied key :=
  fun ⟨_, hdelete⟩ => nomatch h.symm.trans hdelete

theorem copied_iff_of_delete {s : Migrating} {key' : Bytes} {rest : List Bytes}
    (h : s.phase = .delete key' rest) (key : Bytes) : s.Copied key ↔ key = key' := by
  refine ⟨fun ⟨_, hdelete⟩ => ?_, fun heq => ⟨rest, heq ▸ h⟩⟩
  cases h.symm.trans hdelete
  rfl

theorem Ready.inPlace {s : Migrating} (h : s.Ready) : s.InPlace := by
  obtain ⟨keys, hscan⟩ := h.scans
  have hcopied := not_copied_of_scan hscan
  refine ⟨h.ne, h.fromGroup, h.toGroup, fun key => ⟨fun hsettled => ?_, fun hto hwaits => ?_⟩,
    fun key value rest hcopy => (nomatch hscan.symm.trans hcopy),
    fun key hkey => absurd hkey (hcopied key)⟩
  · by_cases hto : s.manager.shardFor key = s.toId
    · exact h.released key hto ((hsettled hto).resolve_right (hcopied key))
    · exact h.others key hto
  · obtain ⟨value, hvalue⟩ := Option.ne_none_iff_exists'.mp fun hnone => hwaits (.inl hnone)
    rw [hvalue, h.waiting key hto value hvalue]

/-- A step that leaves a key as it is. -/
theorem Keeps.congr {s t : Migrating} {key : Bytes} (h : s.Keeps key)
    (hroute : t.manager.shardFor key = s.manager.shardFor key) (hfrom : t.fromId = s.fromId)
    (hto : t.toId = s.toId) (hvalue : ∀ id, t.manager.valueAt id key = s.manager.valueAt id key)
    (hcopied : t.Copied key ↔ s.Copied key) (hlatest : t.latest key = s.latest key) :
    t.Keeps key := by
  have hreleased : t.Released key ↔ s.Released key := by
    rw [Released, Released, hfrom, hvalue, hcopied]
  refine ⟨fun hsettled => ?_, fun hnew hwaits => ?_⟩
  · rw [answer, hroute, hvalue, hlatest]
    exact h.settled fun hnew => hreleased.mp (hsettled (by rw [hroute, hto, hnew]))
  · rw [hfrom, hvalue, hlatest]
    exact h.waiting (by rw [← hroute, hnew, hto]) (mt hreleased.mpr hwaits)

/-! ## One step -/

theorem InPlace.write {s : Migrating} (h : s.InPlace) {key : Bytes}
    (hsettled : s.Settled (.get key)) (value : Option Bytes) (clientId seq : Nat) :
    (s.write key value clientId seq).InPlace := by
  simp only [Migrating.write]
  split
  next => exact h
  next sm hgroup =>
    -- what the old group has for the keys of the new one stays
    have hold : ∀ key', s.manager.shardFor key' = s.toId →
        (s.manager.commit (s.manager.shardFor key) (.set key value clientId seq)).valueAt s.fromId
          key' = s.manager.valueAt s.fromId key' := by
      intro key' hto
      by_cases heq : key' = key
      · subst heq
        exact ShardManager.valueAt_commit_of_ne _ (hto ▸ h.ne)
      · exact ShardManager.valueAt_commit_set_of_ne _ heq
    refine ⟨h.ne, ShardManager.isSome_group_commit _ h.fromGroup,
      ShardManager.isSome_group_commit _ h.toGroup, fun key' => ?_, fun key' v rest hcopy => ?_,
      fun key' hcopied => ?_⟩
    · by_cases heq : key' = key
      · -- the key itself: the write goes where its reads go, and its copy is settled
        subst heq
        refine ⟨fun _ => ?_, fun hto hwaits => ?_⟩
        · have hanswer := (h.keeps key').settled hsettled
          simp only [answer, ShardManager.commit_shardFor] at hanswer ⊢
          rw [ShardManager.valueAt_commit_set _ hgroup]
          by_cases hcached : sm.cached (.set key' value clientId seq) = none
          · rw [if_pos ⟨hcached, rfl⟩, if_pos hcached, Function.update_self]
          · rw [if_neg fun hset => hcached hset.1, if_neg hcached, hanswer]
        · -- and it does not wait for the migration
          rw [ShardManager.commit_shardFor] at hto
          refine absurd ((hsettled hto).imp_left fun hnone => ?_) hwaits
          exact (hold key' hto).trans hnone
      · -- other keys are where they were
        refine (h.keeps key').congr (ShardManager.commit_shardFor ..) rfl rfl
          (fun id => ShardManager.valueAt_commit_set_of_ne _ heq) Iff.rfl ?_
        dsimp only
        split
        · exact Function.update_of_ne heq _ _
        · rfl
    · -- a value that was read before the write is still the one in the old group
      obtain ⟨hto, hvalue⟩ := h.copies key' v rest hcopy
      exact ⟨(ShardManager.commit_shardFor ..).trans hto, (hold key' hto).trans hvalue⟩
    · exact (ShardManager.commit_shardFor ..).trans (h.deletes key' hcopied)

theorem InPlace.scan {s : Migrating} (h : s.InPlace) {keys rest : List Bytes}
    (hphase : s.phase = .scan keys) : InPlace { s with phase := .scan rest } := by
  refine ⟨h.ne, h.fromGroup, h.toGroup, fun key => ?_, nofun, nofun⟩
  exact (h.keeps key).congr rfl rfl rfl (fun _ => rfl)
    (iff_of_false (not_copied_of_scan rfl key) (not_copied_of_scan hphase key)) rfl

theorem InPlace.read {s : Migrating} (h : s.InPlace) {key value : Bytes} {keys rest : List Bytes}
    (hphase : s.phase = .scan keys) (hto : s.manager.shardFor key = s.toId)
    (hvalue : s.manager.valueAt s.fromId key = some value) :
    InPlace { s with phase := .copy key value rest } := by
  refine ⟨h.ne, h.fromGroup, h.toGroup, fun key' => ?_, fun key' value' rest' hcopy => ?_, nofun⟩
  · exact (h.keeps key').congr rfl rfl rfl (fun _ => rfl)
      (iff_of_false (not_copied_of_copy rfl key') (not_copied_of_scan hphase key')) rfl
  · cases hcopy
    exact ⟨hto, hvalue⟩

theorem InPlace.latest_of_copy {s : Migrating} (h : s.InPlace) {key value : Bytes}
    {rest : List Bytes} (hphase : s.phase = .copy key value rest) : s.latest key = some value := by
  obtain ⟨hto, hvalue⟩ := h.copies key value rest hphase
  have hwaits : ¬s.Released key := fun hreleased => hreleased.elim
    (fun hnone => nomatch hvalue.symm.trans hnone) (not_copied_of_copy hphase key)
  rw [← (h.keeps key).waiting hto hwaits, hvalue]

theorem InPlace.copy {s : Migrating} (h : s.InPlace) {key value : Bytes} {rest : List Bytes}
    (hphase : s.phase = .copy key value rest) :
    InPlace { s with
      manager := s.manager.commit s.toId (.set key (some value) 0 0)
      phase := .delete key rest } := by
  obtain ⟨hto, -⟩ := h.copies key value rest hphase
  refine ⟨h.ne, ShardManager.isSome_group_commit _ h.fromGroup,
    ShardManager.isSome_group_commit _ h.toGroup, fun key' => ?_, nofun, fun key' hcopied => ?_⟩
  · by_cases heq : key' = key
    · subst heq
      refine ⟨fun _ => ?_, fun _ hwaits => absurd (.inr ⟨rest, rfl⟩) hwaits⟩
      rw [answer, ShardManager.commit_shardFor, hto,
        ShardManager.valueAt_commit_set_zero _ h.toGroup, if_pos rfl]
      exact (h.latest_of_copy hphase).symm
    · refine (h.keeps key').congr (ShardManager.commit_shardFor ..) rfl rfl
        (fun id => ShardManager.valueAt_commit_set_of_ne _ heq) ?_ rfl
      exact iff_of_false (mt (copied_iff_of_delete rfl key').mp heq)
        (not_copied_of_copy hphase key')
  · rw [(copied_iff_of_delete rfl key').mp hcopied]
    exact (ShardManager.commit_shardFor ..).trans hto

theorem InPlace.delete {s : Migrating} (h : s.InPlace) {key : Bytes} {rest : List Bytes}
    (hphase : s.phase = .delete key rest) :
    InPlace { s with
      manager := s.manager.commit s.fromId (.set key none 0 0)
      phase := .scan rest
      moved := s.moved + 1 } := by
  have hto := h.deletes key ⟨rest, hphase⟩
  refine ⟨h.ne, ShardManager.isSome_group_commit _ h.fromGroup,
    ShardManager.isSome_group_commit _ h.toGroup, fun key' => ?_, nofun, nofun⟩
  by_cases heq : key' = key
  · subst heq
    refine ⟨fun _ => ?_, fun _ hwaits => absurd (.inl ?_) hwaits⟩
    · have hanswer := (h.keeps key').settled fun _ => .inr ⟨rest, hphase⟩
      rw [answer, hto] at hanswer
      rw [answer, ShardManager.commit_shardFor, hto,
        ShardManager.valueAt_commit_of_ne _ (Ne.symm h.ne), hanswer]
    · exact (ShardManager.valueAt_commit_set_zero _ h.fromGroup).trans (if_pos rfl)
  · refine (h.keeps key').congr (ShardManager.commit_shardFor ..) rfl rfl
      (fun id => ShardManager.valueAt_commit_set_of_ne _ heq) ?_ rfl
    exact iff_of_false (not_copied_of_scan rfl key') (mt (copied_iff_of_delete hphase key').mp heq)

theorem InPlace.step {s t : Migrating} {a : Action} (h : s.InPlace) (hsettled : s.Settled a)
    (hstep : s.step a = some t) : t.InPlace := by
  cases a with
  | get key =>
      cases hstep
      exact h
  | put key value clientId seq =>
      cases hstep
      exact h.write hsettled (some value) clientId seq
  | del key clientId seq =>
      cases hstep
      exact h.write hsettled none clientId seq
  | migrate =>
      rw [Migrating.step] at hstep
      split at hstep
      next => cases hstep
      next key rest hphase =>
        split at hstep
        -- a key that stays, or that is gone, is passed over
        next =>
          cases hstep
          exact h.scan hphase
        next hto =>
          split at hstep
          next =>
            cases hstep
            exact h.scan hphase
          -- the value is read here and copied in a step of its own
          next value hvalue =>
            cases hstep
            exact h.read hphase (not_not.mp hto) hvalue
      next key value rest hphase =>
        cases hstep
        exact h.copy hphase
      next key rest hphase =>
        cases hstep
        exact h.delete hphase

end Migrating

/-- **Migration is transparent to clients** who meet a key of the new group only
when the old one has nothing left to copy: they read what was written last, and
what `migrateRange` is about to put is what was written last. -/
theorem migration_transparent {s t : Migrating} (hready : s.Ready)
    (r : Run Migrating.step Migrating.Settled s t) :
    (∀ key, t.Settled (.get key) → t.answer key = t.latest key) ∧
      ∀ key value rest, t.phase = .copy key value rest → t.latest key = some value := by
  have hplace : t.InPlace := r.invariant hready.inPlace fun _ _ _ h hsettled hstep =>
    h.step hsettled hstep
  exact ⟨fun key hsettled => (hplace.keeps key).settled hsettled,
    fun key value rest hcopy => hplace.latest_of_copy hcopy⟩

/-! ## Two shards -/

/-- Shard 4 has the key 107 under `v`; shard 5, where the ring puts the key, has
been added, and `migrateRange` begins. -/
def splitting : Migrating where
  manager := ((ShardManager.new 1).addShard 4 (.ofCommands [.set [107] (some [118]) 7 1])).addShard
    5 .empty
  fromId := 4
  toId := 5
  phase := .scan [[107]]
  moved := 0
  latest := fun key => if key = [107] then some [118] else none

theorem splitting_valueAt (id : Nat) (key : Bytes) : splitting.manager.valueAt id key =
    if id = 4 then splitting.latest key else none := by
  have hgroup : splitting.manager.group id = if id = 5 then some .empty else
      if id = 4 then some (.ofCommands [.set [107] (some [118]) 7 1]) else none := by
    change ((AList.insert 4 _ ∅).insert 5 _).lookup id = _
    split
    · -- two groups: the second one is new
      next heq => rw [heq, AList.lookup_insert]
    · next hfive =>
      rw [AList.lookup_insert_ne hfive]
      split
      · next heq => rw [heq, AList.lookup_insert]
      · next hfour => rw [AList.lookup_insert_ne hfour, AList.lookup_empty]
  rw [ShardManager.valueAt, hgroup]
  by_cases hfive : id = 5
  · subst hfive
    rfl
  · rw [if_neg hfive]
    split
    · -- the only key that was written is in the first
      refine (KvStore.get_applyCommand_set .empty [107] key (some [118]) 7 1).trans ?_
      by_cases hkey : key = [107]
      · rw [if_pos ⟨rfl, hkey⟩, hkey]
        rfl
      · rw [if_neg fun hset => hkey hset.2]
        exact (AList.lookup_empty key).trans (if_neg hkey).symm
    · rfl

theorem splitting_ready : splitting.Ready := by
  have hother : ∀ key, key ≠ [107] → splitting.answer key = splitting.latest key := by
    intro key hkey
    have hlatest : splitting.latest key = none := if_neg hkey
    rw [Migrating.answer, splitting_valueAt, hlatest, ite_self]
  refine ⟨by decide, by decide +kernel, by decide +kernel, ⟨_, rfl⟩, fun key hroute => ?_,
    fun key _ value hvalue => ?_, fun key _ hnone => ?_⟩
  · refine hother key fun hkey => hroute ?_
    rw [hkey]
    decide +kernel
  · exact (splitting_valueAt 4 key).symm.trans hvalue
  · replace hnone := (splitting_valueAt 4 key).symm.trans hnone
    exact hother key fun hkey => nomatch hnone.symm.trans (if_pos hkey)

/-- The key is copied, a client reads and writes it, and then the old value is deleted. -/
def overwritten : Migrating :=
  replay Migrating.step splitting
    [.migrate, .migrate, .get [107], .put [107] [119] 8 1, .migrate]

theorem migration_transparent_of_splitting :
    splitting.Ready ∧ overwritten.moved = 1 ∧ overwritten.answer [107] = some [119] := by
  have hcopied : (replay Migrating.step splitting [.migrate, .migrate]).Copied [107] := ⟨[], rfl⟩
  have r : Run Migrating.step Migrating.Settled splitting
      (replay Migrating.step splitting [.migrate, .migrate]) :=
    .snoc (a := .migrate) (.snoc (a := .migrate) (.refl _) trivial rfl) trivial rfl
  have r' : Run Migrating.step Migrating.Settled splitting overwritten :=
    .snoc (a := .migrate) (.snoc (a := .put [107] [119] 8 1)
      (.snoc (a := .get [107]) r (fun _ => .inr hcopied) rfl) (fun _ => .inr hcopied) rfl)
      trivial rfl
  have hlatest : overwritten.latest [107] = some [119] := by decide +kernel
  refine ⟨splitting_ready, rfl, ?_⟩
  rw [← hlatest]
  refine (migration_transparent splitting_ready r').1 [107] fun _ => .inl ?_
  decide +kernel

/-- **A read misses the key, and a write is undone.**  Before the copy the new
group has nothing under the key; and a client's write between the read and the
put of `migrateRange` is lost. -/
theorem copy_undoes_write :
    splitting.latest [107] = some [118] ∧ splitting.answer [107] = none ∧
      Run Migrating.step (fun _ _ => True) splitting
        (replay Migrating.step splitting [.migrate, .put [107] [119] 8 1, .migrate]) ∧
      (replay Migrating.step splitting [.migrate, .put [107] [119] 8 1]).phase =
        .copy [107] [118] [] ∧
      (replay Migrating.step splitting [.migrate, .put [107] [119] 8 1]).latest [107] =
        some [119] ∧
      (replay Migrating.step splitting [.migrate, .put [107] [119] 8 1, .migrate]).latest [107] =
        some [119] ∧
      (replay Migrating.step splitting [.migrate, .put [107] [119] 8 1, .migrate]).answer [107] =
        some [118] := by
  refine ⟨?_, ?_, run_replay ?_, ?_, ?_, ?_, ?_⟩ <;> decide +kernel

end KvRaft
