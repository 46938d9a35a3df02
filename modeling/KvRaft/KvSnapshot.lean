import KvRaft.KvStore
import Mathlib.Data.List.Induction
import Mathlib.Data.List.Permutation

/-!
# KvRaft.KvSnapshot

Snapshots of the store and what commands make of it, up to the order in which
its maps are iterated.

* `KvStore.Equiv` — the same contents; commands respect it (`Equiv.apply`);
* `KvStore.InRange` — the values fit their widths, which every command keeps
  (`InRange.apply`), whatever its bytes are;
* `restore_undoes_snapshot` — restoring a snapshot gives the contents back;
* `StateMachine.replayed` — the machine that a log leads to.
-/

namespace KvRaft

/-! ## Commands -/

/-- The fields of a command fit their widths. -/
structure KvCommand.InRange (c : KvCommand) : Prop where
  key : c.key.length < 2 ^ 32
  value : c.value.length < 2 ^ 32
  expect : c.expect.length < 2 ^ 32
  clientId : c.clientId < 2 ^ 64
  requestSeq : c.requestSeq < 2 ^ 64

/-- Whatever decodes is in range. -/
theorem KvCommand.inRange_of_decode {bytes : Bytes} {c : KvCommand}
    (h : KvCommand.decode bytes = .ok c) : c.InRange := by
  obtain ⟨_, h⟩ := get_run'_eq_ok.mp h
  obtain ⟨_, _, -, h⟩ := get_bind_eq_ok.mp h
  obtain ⟨_, _, hkey, h⟩ := get_bind_eq_ok.mp h
  obtain ⟨_, _, hvalue, h⟩ := get_bind_eq_ok.mp h
  obtain ⟨_, _, hexpect, h⟩ := get_bind_eq_ok.mp h
  obtain ⟨_, _, hid, h⟩ := get_bind_eq_ok.mp h
  obtain ⟨_, _, hseq, h⟩ := get_bind_eq_ok.mp h
  cases h
  exact ⟨getBytes_length hkey, getBytes_length hvalue, getBytes_length hexpect, getU64_lt hid,
    getU64_lt hseq⟩

/-- A command in range is read back as it was written. -/
theorem KvCommand.decodes : RoundTrips InRange encode reader := by
  intro c h
  refine (Decodes.u8 _).bind ((Decodes.bytes h.key).bind ((Decodes.bytes h.value).bind
    ((Decodes.bytes h.expect).bind ((Decodes.u64 h.clientId).bind ?_))))
  simpa using (Decodes.u64 h.requestSeq).map
    (KvCommand.mk (.ofU8 c.op.toU8) c.key c.value c.expect c.clientId)

theorem KvCommand.decode_append {c : KvCommand} (h : c.InRange) (rest : Bytes) :
    decode (c.encode ++ rest) = .ok c := by
  rw [decode]
  exact get_run'_eq_ok.mpr ⟨rest, KvCommand.decodes c h rest⟩

theorem KvCommand.decode_encode {c : KvCommand} (h : c.InRange) : decode c.encode = .ok c := by
  simpa using decode_append h []

namespace KvStore

/-! ## The same contents -/

/-- The stores hold the same, in whatever order. -/
structure Equiv (s t : KvStore) : Prop where
  data : s.data.entries.Perm t.data.entries
  lastSeq : s.lastSeq.entries.Perm t.lastSeq.entries

instance (s t : KvStore) : Decidable (Equiv s t) :=
  decidable_of_iff (s.data.entries.Perm t.data.entries ∧ s.lastSeq.entries.Perm t.lastSeq.entries)
    ⟨fun h => ⟨h.1, h.2⟩, fun h => ⟨h.data, h.lastSeq⟩⟩

namespace Equiv

variable {s t u : KvStore}

theorem refl (s : KvStore) : Equiv s s := ⟨.refl _, .refl _⟩

theorem symm (h : Equiv s t) : Equiv t s := ⟨h.data.symm, h.lastSeq.symm⟩

theorem trans (h : Equiv s t) (h' : Equiv t u) : Equiv s u :=
  ⟨h.data.trans h'.data, h.lastSeq.trans h'.lastSeq⟩

theorem get (h : Equiv s t) (key : Bytes) : s.get key = t.get key := AList.perm_lookup h.data

theorem cached (h : Equiv s t) (cmd : KvCommand) : s.cached cmd = t.cached cmd := by
  rw [KvStore.cached, KvStore.cached, AList.perm_lookup h.lastSeq]

/-- The switch over the operation. -/
theorem execute {d d' : AList fun _ : Bytes => Bytes} (h : d.entries.Perm d'.entries)
    (cmd : KvCommand) : (execute d cmd).1.entries.Perm (KvStore.execute d' cmd).1.entries ∧
      (KvStore.execute d cmd).2 = (KvStore.execute d' cmd).2 := by
  unfold KvStore.execute
  cases cmd.op with
  | put => exact ⟨AList.perm_insert h, rfl⟩
  | del => exact ⟨AList.perm_erase h, rfl⟩
  | cas =>
      simp only [AList.perm_lookup h]
      split
      · exact ⟨AList.perm_insert h, rfl⟩
      · exact ⟨h, rfl⟩
  | other => exact ⟨h, rfl⟩

/-- A command does the same to both, with the same result. -/
theorem applyCommand (h : Equiv s t) (cmd : KvCommand) :
    Equiv (s.applyCommand cmd).1 (t.applyCommand cmd).1 ∧
      (s.applyCommand cmd).2 = (t.applyCommand cmd).2 := by
  obtain ⟨hdata, hresult⟩ := execute h.data cmd
  unfold KvStore.applyCommand
  rw [h.cached cmd]
  cases t.cached cmd with
  | some result => exact ⟨h, rfl⟩
  | none =>
      refine ⟨⟨hdata, ?_⟩, hresult⟩
      simp only [hresult]
      split
      · exact h.lastSeq
      · exact AList.perm_insert h.lastSeq

theorem apply (h : Equiv s t) (bytes : Bytes) (index : Nat) :
    Equiv (StateMachine.apply s bytes index).1 (StateMachine.apply t bytes index).1 ∧
      (StateMachine.apply s bytes index).2 = (StateMachine.apply t bytes index).2 := by
  simp only [StateMachine.apply, KvStore.apply]
  cases KvCommand.decode bytes with
  | error e => exact ⟨h, rfl⟩
  | ok cmd => exact h.applyCommand cmd

/-- So do commands, one after the other. -/
theorem after (h : Equiv s t) (cmds : List KvCommand) :
    Equiv (s.after cmds) (t.after cmds) ∧ s.results cmds = t.results cmds := by
  induction cmds generalizing s t with
  | nil => exact ⟨h, rfl⟩
  | cons cmd cmds ih =>
      obtain ⟨hstore, hresult⟩ := h.applyCommand cmd
      obtain ⟨hrest, hresults⟩ := ih hstore
      simp only [after_cons, results, hresult, hresults]
      exact ⟨hrest, trivial⟩

end Equiv

/-! ## Stores in range -/

/-- The keys, values, ids and numbers fit their widths. -/
structure InRange (s : KvStore) : Prop where
  data : ∀ p ∈ s.data.entries, p.1.length < 2 ^ 32 ∧ p.2.length < 2 ^ 32
  lastSeq : ∀ p ∈ s.lastSeq.entries, p.1 < 2 ^ 64 ∧ p.2.1 < 2 ^ 64 ∧ p.2.2.length < 2 ^ 32

theorem InRange.empty : InRange empty := ⟨nofun, nofun⟩

/-- Entries of a map after an insertion. -/
theorem mem_insert {α β : Type} [DecidableEq α] {m : AList fun _ : α => β} {a : α} {b : β}
    {p : Sigma fun _ : α => β} (h : p ∈ (m.insert a b).entries) : p = ⟨a, b⟩ ∨ p ∈ m.entries := by
  rw [AList.entries_insert] at h
  exact (List.mem_cons.mp h).imp_right fun hp => (List.kerase_sublist a m.entries).subset hp

/-- A command adds at most one entry to a map. -/
theorem length_insert_le {α β : Type} [DecidableEq α] (m : AList fun _ : α => β) (a : α) (b : β) :
    (m.insert a b).entries.length ≤ m.entries.length + 1 := by
  rw [AList.entries_insert, List.length_cons]
  exact Nat.succ_le_succ (List.kerase_sublist a m.entries).length_le

theorem execute_inRange {d : AList fun _ : Bytes => Bytes} {cmd : KvCommand} (hcmd : cmd.InRange)
    (h : ∀ p ∈ d.entries, p.1.length < 2 ^ 32 ∧ p.2.length < 2 ^ 32) :
    (∀ p ∈ (execute d cmd).1.entries, p.1.length < 2 ^ 32 ∧ p.2.length < 2 ^ 32) ∧
      (execute d cmd).1.entries.length ≤ d.entries.length + 1 ∧
      (execute d cmd).2.length < 2 ^ 32 := by
  -- key and value of a command have passed through a length of 32 bits
  have hinsert : ∀ p ∈ (d.insert cmd.key cmd.value).entries,
      p.1.length < 2 ^ 32 ∧ p.2.length < 2 ^ 32 := fun p hp => by
    rcases mem_insert hp with rfl | hp
    · exact ⟨hcmd.key, hcmd.value⟩
    · exact h p hp
  have hok : resultOk.length < 2 ^ 32 := by decide
  have hmismatch : resultCasMismatch.length < 2 ^ 32 := by decide
  unfold execute
  cases cmd.op with
  | put => exact ⟨hinsert, length_insert_le d _ _, hok⟩
  | del =>
      have hsub := List.kerase_sublist cmd.key d.entries
      exact ⟨fun p hp => h p (hsub.subset hp), Nat.le_succ_of_le hsub.length_le, hok⟩
  | cas =>
      simp only
      split
      · exact ⟨hinsert, length_insert_le d _ _, hok⟩
      · exact ⟨h, Nat.le_succ _, hmismatch⟩
  | other => exact ⟨h, Nat.le_succ _, Nat.two_pow_pos 32⟩

/-- A command keeps a store in range and adds at most one entry to each map. -/
theorem InRange.apply {s : KvStore} (h : InRange s) (bytes : Bytes) (index : Nat) :
    InRange (StateMachine.apply s bytes index).1 ∧
      (StateMachine.apply s bytes index).1.data.entries.length ≤ s.data.entries.length + 1 ∧
      (StateMachine.apply s bytes index).1.lastSeq.entries.length ≤
        s.lastSeq.entries.length + 1 := by
  have hkeep : InRange s ∧ s.data.entries.length ≤ s.data.entries.length + 1 ∧
      s.lastSeq.entries.length ≤ s.lastSeq.entries.length + 1 :=
    ⟨h, Nat.le_succ _, Nat.le_succ _⟩
  simp only [StateMachine.apply, KvStore.apply]
  cases hdecode : KvCommand.decode bytes with
  | error e => exact hkeep
  | ok cmd =>
      have hcmd := KvCommand.inRange_of_decode hdecode
      obtain ⟨hdata, hlength, hresult⟩ := execute_inRange hcmd h.data
      change InRange (s.applyCommand cmd).1 ∧
        (s.applyCommand cmd).1.data.entries.length ≤ _ ∧
        (s.applyCommand cmd).1.lastSeq.entries.length ≤ _
      unfold applyCommand
      -- a repeated request changes nothing
      cases s.cached cmd with
      | some result => exact hkeep
      | none =>
          simp only
          -- only named clients get an entry in the table
          split
          · exact ⟨⟨hdata, h.lastSeq⟩, hlength, Nat.le_succ _⟩
          · refine ⟨⟨hdata, fun p hp => ?_⟩, hlength, length_insert_le _ _ _⟩
            rcases mem_insert hp with rfl | hp
            · exact ⟨hcmd.clientId, hcmd.requestSeq, hresult⟩
            · exact h.lastSeq p hp

/-! ## Restoring a snapshot -/

/-- Inserting the entries of one map into another that shares no key with it. -/
theorem foldl_insert_entries {α β : Type} [DecidableEq α] (l : List (α × β))
    (m : AList fun _ : α => β) (hnodup : (l.map Prod.fst).Nodup) (hnew : ∀ p ∈ l, p.1 ∉ m) :
    (l.foldl (fun d p => d.insert p.1 p.2) m).entries.Perm
      (l.map (fun p => (⟨p.1, p.2⟩ : Sigma fun _ : α => β)) ++ m.entries) := by
  induction l generalizing m with
  | nil => exact .refl _
  | cons p l ih =>
      rw [List.map_cons, List.nodup_cons] at hnodup
      have hp := hnew p List.mem_cons_self
      have hrest : ∀ q ∈ l, q.1 ∉ m.insert p.1 p.2 := fun q hq => by
        rw [AList.mem_insert, not_or]
        refine ⟨fun heq => hnodup.1 ?_, hnew q (List.mem_cons_of_mem p hq)⟩
        rw [← heq]
        exact List.mem_map_of_mem hq
      refine (ih (m.insert p.1 p.2) hnodup.2 hrest).trans ?_
      rw [AList.entries_insert_of_notMem hp, List.map_cons, List.cons_append]
      exact List.perm_middle

/-- A map is rebuilt from its entries. -/
theorem foldl_insert_perm {α β : Type} [DecidableEq α] (m : AList fun _ : α => β) :
    ((m.entries.map fun p => (p.1, p.2)).foldl (fun d p => d.insert p.1 p.2) ∅ :
      AList fun _ : α => β).entries.Perm m.entries := by
  have hkeys : ((m.entries.map fun p => (p.1, p.2)).map Prod.fst).Nodup := by
    rw [List.map_map]
    exact m.nodupKeys
  have h := foldl_insert_entries (m.entries.map fun p => (p.1, p.2)) ∅ hkeys
    fun _ _ => AList.notMem_empty _
  rw [List.map_map] at h
  have hid : ((fun p : α × β => (⟨p.1, p.2⟩ : Sigma fun _ : α => β)) ∘
      fun p : Sigma fun _ : α => β => (p.1, p.2)) = id := rfl
  rw [hid, List.map_id] at h
  simpa using h

/-- The maps are small enough for the counts in a snapshot. -/
structure Fits (s : KvStore) : Prop extends InRange s where
  data_length : s.data.entries.length < 2 ^ 32
  lastSeq_length : s.lastSeq.entries.length < 2 ^ 32

/-- One entry of the data as a snapshot reads it. -/
theorem decodes_pair {k v : Bytes} (hk : k.length < 2 ^ 32) (hv : v.length < 2 ^ 32) :
    Decodes (do let k ← getBytes; let v ← getBytes; return (k, v)) (putBytes k ++ putBytes v)
      (k, v) :=
  (Decodes.bytes hk).bind ((Decodes.bytes hv).map (Prod.mk k))

theorem decodes_seq {cid seq : Nat} {res : Bytes} (hcid : cid < 2 ^ 64) (hseq : seq < 2 ^ 64)
    (hres : res.length < 2 ^ 32) :
    Decodes (do let cid ← getU64; let seq ← getU64; let res ← getBytes; return (cid, seq, res))
      (putU64 cid ++ (putU64 seq ++ putBytes res)) (cid, seq, res) :=
  (Decodes.u64 hcid).bind ((Decodes.u64 hseq).bind
    ((Decodes.bytes hres).map fun r => (cid, seq, r)))

theorem decodes_snapshot {s : KvStore} (h : s.Fits) :
    Decodes getSnapshot s.snapshot
      ⟨(s.data.entries.map fun p => (p.1, p.2)).foldl (fun d p => d.insert p.1 p.2) ∅,
        (s.lastSeq.entries.map fun p => (p.1, p.2)).foldl (fun d p => d.insert p.1 p.2) ∅⟩ := by
  -- each pair reads back, so the list of pairs does
  have hdata : Decodes (getMany (do let k ← getBytes; let v ← getBytes; return (k, v))
      s.data.entries.length) (s.data.entries.flatMap fun p => putBytes p.1 ++ putBytes p.2)
      (s.data.entries.map fun p => (p.1, p.2)) := by
    have hmany := Decodes.many (fun p => putBytes p.1 ++ putBytes p.2)
      (s.data.entries.map fun p => (p.1, p.2)) fun p hp => by
        obtain ⟨q, hq, rfl⟩ := List.mem_map.mp hp
        exact decodes_pair (h.data q hq).1 (h.data q hq).2
    rwa [List.length_map, List.flatMap_map] at hmany
  have hseq : Decodes (getMany (do
      let cid ← getU64; let seq ← getU64; let res ← getBytes; return (cid, seq, res))
      s.lastSeq.entries.length)
      (s.lastSeq.entries.flatMap fun p => putU64 p.1 ++ (putU64 p.2.1 ++ putBytes p.2.2))
      (s.lastSeq.entries.map fun p => (p.1, p.2)) := by
    have hmany := Decodes.many (fun p => putU64 p.1 ++ (putU64 p.2.1 ++ putBytes p.2.2))
      (s.lastSeq.entries.map fun p => (p.1, p.2)) fun p hp => by
        obtain ⟨q, hq, rfl⟩ := List.mem_map.mp hp
        obtain ⟨hcid, hseq, hres⟩ := h.lastSeq q hq
        exact decodes_seq hcid hseq hres
    rwa [List.length_map, List.flatMap_map] at hmany
  -- the two counts stand in front of their lists
  exact (Decodes.u32 h.data_length).bind (hdata.bind
    ((Decodes.u32 h.lastSeq_length).bind (hseq.map _)))

/-- A snapshot is read back without an error, with the contents of the store. -/
theorem restore_snapshot {s : KvStore} (h : s.Fits) :
    ∃ r, restore s.snapshot = .ok r ∧ Equiv r s := by
  have hne : s.snapshot ≠ [] := by
    simp [snapshot, putU32, putLE]
  have hdecodes := decodes_snapshot h []
  rw [List.append_nil] at hdecodes
  have hrun := get_run'_eq_ok.mpr ⟨[], hdecodes⟩
  rw [restore, if_neg hne]
  exact ⟨_, hrun, foldl_insert_perm s.data, foldl_insert_perm s.lastSeq⟩

/-- The bytes are a snapshot of the store, written in some order. -/
def IsSnapshot (bytes : Bytes) (s : KvStore) : Prop := ∃ t : KvStore, Equiv t s ∧ bytes = t.snapshot

instance {α β : Type} [DecidableEq α] (l : List (Sigma fun _ : α => β)) : Decidable l.NodupKeys :=
  inferInstanceAs (Decidable l.keys.Nodup)

instance (bytes : Bytes) (s : KvStore) : Decidable (IsSnapshot bytes s) :=
  decidable_of_iff (∃ d ∈ s.data.entries.permutations', ∃ l ∈ s.lastSeq.entries.permutations',
      ∃ (hd : d.NodupKeys) (hl : l.NodupKeys), bytes = snapshot ⟨⟨d, hd⟩, ⟨l, hl⟩⟩) <| by
    simp only [List.mem_permutations']
    exact ⟨fun ⟨d, hd, l, hl, hdk, hlk, h⟩ => ⟨⟨⟨d, hdk⟩, ⟨l, hlk⟩⟩, ⟨hd, hl⟩, h⟩,
      fun ⟨t, ht, h⟩ => ⟨_, ht.data, _, ht.lastSeq, t.data.nodupKeys, t.lastSeq.nodupKeys, h⟩⟩

theorem Fits.of_equiv {s t : KvStore} (ht : t.Fits) (h : Equiv s t) : s.Fits where
  data p hp := ht.data p (h.data.subset hp)
  lastSeq p hp := ht.lastSeq p (h.lastSeq.subset hp)
  data_length := h.data.length_eq ▸ ht.data_length
  lastSeq_length := h.lastSeq.length_eq ▸ ht.lastSeq_length

/-- Whatever the receiver holds, restoring succeeds and puts the contents of the
snapshot in their place. -/
theorem IsSnapshot.restore_ok {bytes : Bytes} {s : KvStore} (h : IsSnapshot bytes s) (hs : s.Fits)
    (t : KvStore) : KvStore.restore bytes = .ok (StateMachine.restore t bytes) ∧
      Equiv (StateMachine.restore t bytes) s := by
  obtain ⟨u, hus, rfl⟩ := h
  obtain ⟨r, hr, hru⟩ := restore_snapshot (hs.of_equiv hus)
  have hrestore : StateMachine.restore t u.snapshot = r := by
    simp only [StateMachine.restore, hr]
  rw [hrestore]
  exact ⟨hr, hru.trans hus⟩

theorem IsSnapshot.restore {bytes : Bytes} {s : KvStore} (h : IsSnapshot bytes s) (hs : s.Fits)
    (t : KvStore) : Equiv (StateMachine.restore t bytes) s := (h.restore_ok hs t).2

/-- **Restoring undoes a snapshot**: whatever the order in which the maps were
written and whatever the receiver holds, it ends with the contents of the store,
and from then on commands do the same to both. -/
theorem restore_undoes_snapshot {bytes : Bytes} {s : KvStore} (h : IsSnapshot bytes s)
    (hs : s.Fits) (t : KvStore) :
    KvStore.restore bytes = .ok (StateMachine.restore t bytes) ∧
      Equiv (StateMachine.restore t bytes) s ∧
      ∀ cmds, (after (StateMachine.restore t bytes) cmds).Equiv (s.after cmds) ∧
        results (StateMachine.restore t bytes) cmds = s.results cmds := by
  obtain ⟨hok, hequiv⟩ := h.restore_ok hs t
  exact ⟨hok, hequiv, fun cmds => hequiv.after cmds⟩

/-- The snapshot of a store with two keys, written in the other order. -/
theorem restore_undoes_snapshot_of_reordered :
    let s := ofCommands [⟨.put, [107], [1], [], 7, 1⟩, ⟨.put, [108], [2], [], 7, 2⟩]
    let u := ofCommands [⟨.put, [108], [2], [], 7, 1⟩, ⟨.put, [107], [1], [], 7, 2⟩]
    let t := ofCommands [⟨.put, [109], [3], [], 9, 4⟩]
    let cas : KvCommand := ⟨.cas, [108], [4], [2], 7, 3⟩
    u.snapshot ≠ s.snapshot ∧
      results (StateMachine.restore t u.snapshot) [cas, cas] = s.results [cas, cas] := by
  intro s u t cas
  have hsnapshot : IsSnapshot u.snapshot s := by decide
  have hfits : s.Fits := ⟨⟨by decide, by decide⟩, by decide, by decide⟩
  exact ⟨by decide, ((restore_undoes_snapshot hsnapshot hfits t).2.2 [cas, cas]).2⟩

end KvStore

/-! ## Replaying a log -/

namespace StateMachine

variable {σ : Type} [StateMachine σ]

/-- The machine after an entry, of which it only sees commands. -/
def takes (sm : σ) (e : LogEntry) : σ :=
  match e.type with
  | .command => (apply sm e.data e.index).1
  | _ => sm

/-- A new machine after all entries of a log. -/
def replayed (log : List LogEntry) : σ := log.foldl takes fresh

theorem replayed_append (log log' : List LogEntry) :
    (replayed (log ++ log') : σ) = log'.foldl takes (replayed log) := List.foldl_append

/-- One more entry of a longer log. -/
theorem replayed_take_succ {log : List LogEntry} {k : Nat} {e : LogEntry} (h : log[k]? = some e) :
    (replayed (log.take (k + 1)) : σ) = takes (replayed (log.take k)) e := by
  rw [List.take_add_one, h, replayed_append]
  rfl

end StateMachine

namespace KvStore

open StateMachine (takes replayed)

theorem Equiv.takes {s t : KvStore} (h : Equiv s t) (e : LogEntry) :
    Equiv (takes s e) (StateMachine.takes t e) := by
  unfold StateMachine.takes
  cases e.type with
  | command => exact (h.apply e.data e.index).1
  | _ => exact h

/-- Replaying keeps a store in range and makes at most one entry of each map
for an entry of the log. -/
theorem replayed_inRange (log : List LogEntry) : (replayed log : KvStore).InRange ∧
    (replayed log : KvStore).data.entries.length ≤ log.length ∧
    (replayed log : KvStore).lastSeq.entries.length ≤ log.length := by
  induction log using List.reverseRecOn with
  | nil => exact ⟨.empty, Nat.le_refl _, Nat.le_refl _⟩
  | append_singleton log e ih =>
      obtain ⟨hrange, hdata, hlastSeq⟩ := ih
      have hone : (takes (replayed log : KvStore) e).InRange ∧
          (takes (replayed log : KvStore) e).data.entries.length ≤ log.length + 1 ∧
          (takes (replayed log : KvStore) e).lastSeq.entries.length ≤ log.length + 1 := by
        unfold takes
        cases e.type with
        | command =>
            obtain ⟨hrange', hdata', hlastSeq'⟩ := hrange.apply e.data e.index
            exact ⟨hrange', hdata'.trans (Nat.succ_le_succ hdata),
              hlastSeq'.trans (Nat.succ_le_succ hlastSeq)⟩
        | _ => exact ⟨hrange, Nat.le_succ_of_le hdata, Nat.le_succ_of_le hlastSeq⟩
      rw [StateMachine.replayed_append, List.length_append]
      exact hone

theorem Fits.replayed {log : List LogEntry} (h : log.length < 2 ^ 32) :
    (replayed log : KvStore).Fits := by
  obtain ⟨hrange, hdata, hlastSeq⟩ := replayed_inRange log
  exact ⟨hrange, by omega, by omega⟩

end KvStore

end KvRaft
