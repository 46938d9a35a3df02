import KvRaft.Types
import KvRaft.Replica.State

/-!
# KvRaft.PersistentLog

The durable log of `raft/persistent_log.h`: hard state, the entries since the
last snapshot, and the directory that holds them.  A directory is kept here as
the records its three files hold; `KvRaft.Disk` goes down to the bytes.

* `Synced` — the directory holds what is in memory, so a restart loads the
  same log; every operation keeps it.
* `Represents` — the log stands for a full log whose first `snapshotIndex`
  entries have been compacted away; the queries answer as on the full log.
-/

namespace KvRaft

open Replica (HasTerm)

instance : HasTerm LogEntry := ⟨LogEntry.term⟩

/-- Contents of `snapshot.bin`. -/
structure SnapshotFile where
  index : Nat
  term : Nat
  bytes : Bytes
  deriving DecidableEq

/-- The files of a log's directory; `none` is a file that does not exist. -/
structure Directory where
  /-- `hardstate`: current term and vote -/
  hardstate : Option (Nat × NodeId)
  /-- `snapshot.bin` -/
  snapshot : Option SnapshotFile
  /-- `wal.log` -/
  wal : Option (List LogEntry)
  deriving DecidableEq

/-- A directory nothing was written to. -/
def Directory.empty : Directory := ⟨none, none, none⟩

structure PersistentLog where
  dir : Directory
  currentTerm : Nat
  votedFor : NodeId
  snapshotIndex : Nat
  snapshotTerm : Nat
  /-- entries with an index above `snapshotIndex` -/
  entries : List LogEntry
  deriving DecidableEq

namespace PersistentLog

/-- The constructor: what `loadFromDisk` reads from the three files. -/
def load (d : Directory) : PersistentLog where
  dir := d
  currentTerm := (d.hardstate.map Prod.fst).getD 0
  votedFor := (d.hardstate.map Prod.snd).getD 0
  snapshotIndex := (d.snapshot.map SnapshotFile.index).getD 0
  snapshotTerm := (d.snapshot.map SnapshotFile.term).getD 0
  entries := d.wal.getD []

/-! ## Queries -/

def lastIndex (L : PersistentLog) : Nat :=
  match L.entries.getLast? with
  | none => L.snapshotIndex
  | some e => e.index

def lastTerm (L : PersistentLog) : Nat :=
  match L.entries.getLast? with
  | none => L.snapshotTerm
  | some e => e.term

/-- Term of the entry at `idx`, or `0` if unknown or compacted away; the term
at the snapshot boundary is remembered. -/
def termAt (L : PersistentLog) (idx : Nat) : Nat :=
  if idx = L.snapshotIndex then L.snapshotTerm
  else if idx < L.snapshotIndex then 0
  else match L.entries[idx - L.snapshotIndex - 1]? with
    | some e => e.term
    | none => 0

/-- `at(idx)`. -/
def entryAt (L : PersistentLog) (idx : Nat) : Option LogEntry :=
  if idx ≤ L.snapshotIndex then none else L.entries[idx - L.snapshotIndex - 1]?

/-- Entries strictly after `afterIdx`, up to `maxCount` (`0` for all). -/
def entriesAfter (L : PersistentLog) (afterIdx : Nat) (maxCount : Nat) : List LogEntry :=
  if afterIdx < L.snapshotIndex then []
  else
    let out := L.entries.drop (afterIdx - L.snapshotIndex)
    if maxCount = 0 then out else out.take maxCount

def loadSnapshotBytes (L : PersistentLog) : Option Bytes := L.dir.snapshot.map SnapshotFile.bytes

/-! ## Operations -/

def writeHardStateLocked (L : PersistentLog) : PersistentLog :=
  { L with dir := { L.dir with hardstate := some (L.currentTerm, L.votedFor) } }

def writeSnapshotLocked (L : PersistentLog) (snapshotBytes : Bytes) : PersistentLog :=
  { L with dir :=
      { L.dir with snapshot := some ⟨L.snapshotIndex, L.snapshotTerm, snapshotBytes⟩ } }

def rewriteWalLocked (L : PersistentLog) : PersistentLog :=
  { L with dir := { L.dir with wal := some L.entries } }

def setHardState (L : PersistentLog) (term : Nat) (votedFor : NodeId) : PersistentLog :=
  { L with currentTerm := term, votedFor := votedFor }.writeHardStateLocked

/-- The entries in memory after `appendAndSync`: whatever the log holds from
the first new index on is cut off, whether or not it conflicts. -/
def appended (L : PersistentLog) (firstNew : Nat) (newEntries : List LogEntry) :
    PersistentLog :=
  -- a first index at or below the snapshot keeps nothing
  let keepOff := if firstNew > L.snapshotIndex then firstNew - L.snapshotIndex - 1 else 0
  { L with entries := L.entries.take keepOff ++ newEntries }

def appendAndSync (L : PersistentLog) (newEntries : List LogEntry) : PersistentLog :=
  match newEntries with
  | [] => L
  | e :: _ => (L.appended e.index newEntries).rewriteWalLocked

/-- The log in memory after `compactUpTo`. -/
def compacted (L : PersistentLog) (index : Nat) (termAtIndex : Nat) : PersistentLog :=
  { L with
    entries := L.entries.drop (index - L.snapshotIndex)
    snapshotIndex := index
    snapshotTerm := termAtIndex }

def compactUpTo (L : PersistentLog) (index : Nat) (termAtIndex : Nat)
    (snapshotBytes : Bytes) : PersistentLog :=
  if index ≤ L.snapshotIndex then L
  else ((L.compacted index termAtIndex).writeSnapshotLocked snapshotBytes).rewriteWalLocked

/-! ## Memory and directory -/

/-- The directory holds what is in memory. -/
def Synced (L : PersistentLog) : Prop := load L.dir = L

theorem Synced.setHardState {L : PersistentLog} (h : L.Synced) (t : Nat) (v : NodeId) :
    (L.setHardState t v).Synced := by
  unfold Synced at h ⊢
  rw [← h]
  rfl

theorem Synced.appendAndSync {L : PersistentLog} (h : L.Synced) (es : List LogEntry) :
    (L.appendAndSync es).Synced := by
  cases es with
  | nil => exact h
  | cons e es =>
      unfold Synced at h ⊢
      rw [← h]
      rfl

theorem Synced.compactUpTo {L : PersistentLog} (h : L.Synced) (i : Nat) (t : Nat)
    (bytes : Bytes) : (L.compactUpTo i t bytes).Synced := by
  unfold PersistentLog.compactUpTo
  split
  · exact h
  · unfold Synced at h ⊢
    rw [← h]
    rfl

/-! ## What an operation leaves alone -/

section Frame

variable (L : PersistentLog) (t : Nat) (v : NodeId) (i : Nat) (bytes : Bytes)
  (es : List LogEntry)

@[simp] theorem setHardState_currentTerm : (L.setHardState t v).currentTerm = t := rfl

@[simp] theorem setHardState_votedFor : (L.setHardState t v).votedFor = v := rfl

@[simp] theorem setHardState_snapshotIndex :
    (L.setHardState t v).snapshotIndex = L.snapshotIndex := rfl

@[simp] theorem setHardState_snapshotTerm :
    (L.setHardState t v).snapshotTerm = L.snapshotTerm := rfl

@[simp] theorem setHardState_entries : (L.setHardState t v).entries = L.entries := rfl

@[simp] theorem setHardState_lastIndex : (L.setHardState t v).lastIndex = L.lastIndex := rfl

@[simp] theorem setHardState_lastTerm : (L.setHardState t v).lastTerm = L.lastTerm := rfl

@[simp] theorem setHardState_termAt : (L.setHardState t v).termAt i = L.termAt i := rfl

@[simp] theorem setHardState_entryAt : (L.setHardState t v).entryAt i = L.entryAt i := rfl

@[simp] theorem appendAndSync_currentTerm : (L.appendAndSync es).currentTerm = L.currentTerm := by
  cases es <;> rfl

@[simp] theorem appendAndSync_votedFor : (L.appendAndSync es).votedFor = L.votedFor := by
  cases es <;> rfl

@[simp] theorem appendAndSync_snapshotIndex :
    (L.appendAndSync es).snapshotIndex = L.snapshotIndex := by
  cases es <;> rfl

@[simp] theorem appendAndSync_snapshotTerm :
    (L.appendAndSync es).snapshotTerm = L.snapshotTerm := by
  cases es <;> rfl

@[simp] theorem appendAndSync_snapshot :
    (L.appendAndSync es).dir.snapshot = L.dir.snapshot := by
  cases es <;> rfl

@[simp] theorem compactUpTo_currentTerm :
    (L.compactUpTo i t bytes).currentTerm = L.currentTerm := by
  unfold compactUpTo; split <;> rfl

@[simp] theorem compactUpTo_votedFor : (L.compactUpTo i t bytes).votedFor = L.votedFor := by
  unfold compactUpTo; split <;> rfl

theorem compactUpTo_snapshotIndex :
    (L.compactUpTo i t bytes).snapshotIndex = max L.snapshotIndex i := by
  unfold compactUpTo
  split
  · omega
  · rw [Nat.max_eq_right (by omega)]; rfl

theorem compactUpTo_snapshotTerm : (L.compactUpTo i t bytes).snapshotTerm =
    if i ≤ L.snapshotIndex then L.snapshotTerm else t := by
  unfold compactUpTo
  split <;> rfl

theorem compactUpTo_snapshot : (L.compactUpTo i t bytes).dir.snapshot =
    if i ≤ L.snapshotIndex then L.dir.snapshot else some ⟨i, t, bytes⟩ := by
  unfold compactUpTo
  split <;> rfl

theorem compactUpTo_entries :
    (L.compactUpTo i t bytes).entries = L.entries.drop (i - L.snapshotIndex) := by
  unfold compactUpTo
  split
  · next h => rw [Nat.sub_eq_zero_of_le h, List.drop_zero]
  · rfl

theorem mem_compactUpTo_entries {e : LogEntry} (h : e ∈ (L.compactUpTo i t bytes).entries) :
    e ∈ L.entries := by
  rw [compactUpTo_entries] at h
  exact List.mem_of_mem_drop h

theorem mem_appendAndSync_entries {e : LogEntry} (h : e ∈ (L.appendAndSync es).entries) :
    e ∈ L.entries ∨ e ∈ es := by
  cases es with
  | nil => exact .inl h
  | cons x xs => exact (List.mem_append.mp h).imp_left List.mem_of_mem_take

theorem mem_of_mem_entriesAfter {m : Nat} {e : LogEntry} (h : e ∈ L.entriesAfter i m) :
    e ∈ L.entries := by
  unfold entriesAfter at h
  split at h
  · cases h
  · dsimp only at h
    split at h
    · exact List.mem_of_mem_drop h
    · exact List.mem_of_mem_drop (List.mem_of_mem_take h)

/-- An entry other than the one just appended was there before, at its place. -/
theorem getElem?_of_appendAndSync {x e : LogEntry} {j : Nat}
    (h : (L.appendAndSync [x]).entries[j]? = some e) (hne : e ≠ x) : L.entries[j]? = some e := by
  change (List.take _ L.entries ++ [x])[j]? = some e at h
  -- below the cut, or the new entry itself
  rcases Nat.lt_or_ge j (List.take _ L.entries).length with hlt | hge
  · rw [List.getElem?_append_left hlt] at h
    rw [List.length_take] at hlt
    rwa [List.getElem?_take_of_lt (by omega)] at h
  · rw [List.getElem?_append_right hge] at h
    exact absurd (List.mem_singleton.mp (List.mem_of_getElem? h)) hne

end Frame

/-! ## The full log behind a compacted one -/

/-- The `i`-th entry carries the index `k + i + 1`. -/
def IndexedFrom (k : Nat) (l : List LogEntry) : Prop := ∀ i e, l[i]? = some e → e.index = k + i + 1

/-- `entries[i].index == snapshotIndex + 1 + i`. -/
def Aligned (L : PersistentLog) : Prop := IndexedFrom L.snapshotIndex L.entries

/-- The log stands for the full log `full`. -/
structure Represents (L : PersistentLog) (full : List LogEntry) : Prop where
  snap_le : L.snapshotIndex ≤ full.length
  entries : L.entries = full.drop L.snapshotIndex
  snapshotTerm : L.snapshotTerm = Replica.termAt full L.snapshotIndex
  indexed : IndexedFrom 0 full

namespace IndexedFrom

variable {k : Nat} {l l' : List LogEntry}

theorem nil (k : Nat) : IndexedFrom k [] := by
  intro i e h
  simp at h

theorem of_isPrefix (h : IndexedFrom k l) (hp : l' <+: l) : IndexedFrom k l' := by
  obtain ⟨x, rfl⟩ := hp
  intro i e he
  exact h i e (by rw [List.getElem?_append_left (List.getElem?_eq_some_iff.mp he).1, he])

theorem take (h : IndexedFrom k l) (m : Nat) : IndexedFrom k (l.take m) :=
  h.of_isPrefix ⟨_, List.take_append_drop m l⟩

theorem drop (h : IndexedFrom k l) (m : Nat) : IndexedFrom (k + m) (l.drop m) := by
  intro i e he
  rw [List.getElem?_drop] at he
  have := h (m + i) e he
  omega

/-- Two runs of indices that meet make one. -/
theorem append (h : IndexedFrom k l) (h' : IndexedFrom (k + l.length) l') :
    IndexedFrom k (l ++ l') := by
  intro i e he
  rcases Nat.lt_or_ge i l.length with hlt | hge
  · rw [List.getElem?_append_left hlt] at he
    exact h i e he
  · rw [List.getElem?_append_right hge] at he
    have := h' _ e he
    omega

theorem singleton {e : LogEntry} (h : e.index = k + 1) : IndexedFrom k [e] := by
  intro i x hx
  obtain ⟨hi, rfl⟩ := List.getElem?_eq_some_iff.mp hx
  have hi0 : i = 0 := by simpa using hi
  subst hi0
  exact h

/-- The last index follows from the length. -/
theorem getLast?_index (h : IndexedFrom k l) {e : LogEntry} (he : l.getLast? = some e) :
    e.index = k + l.length := by
  rw [List.getLast?_eq_getElem?] at he
  have hlt := (List.getElem?_eq_some_iff.mp he).1
  have := h _ e he
  omega

/-- An entry sits at the place its index says. -/
theorem getElem?_of_mem (h : IndexedFrom k l) {e : LogEntry} (he : e ∈ l) :
    k < e.index ∧ l[e.index - k - 1]? = some e := by
  obtain ⟨i, hi, rfl⟩ := List.getElem_of_mem he
  have hidx := h i _ (List.getElem?_eq_getElem hi)
  have hoff : l[i].index - k - 1 = i := by omega
  exact ⟨by omega, by rw [hoff, List.getElem?_eq_getElem hi]⟩

theorem map_index (h : IndexedFrom k l) :
    l.map LogEntry.index = List.range' (k + 1) l.length := by
  refine List.ext_getElem (by simp) fun i hi hi' => ?_
  rw [List.length_map] at hi
  have := h i _ (List.getElem?_eq_getElem hi)
  rw [List.getElem_map, List.getElem_range', this]
  omega

theorem of_map_index (h : l.map LogEntry.index = List.range' (k + 1) l.length) :
    IndexedFrom k l := by
  intro i e he
  obtain ⟨hi, rfl⟩ := List.getElem?_eq_some_iff.mp he
  have hat : (l.map LogEntry.index)[i]? = (List.range' (k + 1) l.length)[i]? := by rw [h]
  rw [List.getElem?_map, he, List.getElem?_range' hi] at hat
  have := Option.some.inj hat
  omega

instance (k : Nat) (l : List LogEntry) : Decidable (IndexedFrom k l) :=
  decidable_of_iff _ ⟨of_map_index, map_index⟩

/-- Of two runs that start together, one begins the other if it holds no other
entries. -/
theorem isPrefix_of_subset (h : IndexedFrom k l) (h' : IndexedFrom k l') (hsub : l ⊆ l') :
    l <+: l' := by
  rw [List.prefix_iff_getElem?]
  intro i hi
  obtain ⟨hlt, hat⟩ := h'.getElem?_of_mem (hsub (List.getElem_mem hi))
  have hidx := h i _ (List.getElem?_eq_getElem hi)
  rwa [show l[i].index - k - 1 = i by omega] at hat

theorem nodup_index (h : IndexedFrom k l) : (l.map LogEntry.index).Nodup := by
  rw [h.map_index]
  exact List.nodup_range'

theorem pairwise_index (h : IndexedFrom k l) : l.Pairwise fun e e' => e.index < e'.index := by
  have hlt : (l.map LogEntry.index).Pairwise (· < ·) := by
    rw [h.map_index]
    exact List.pairwise_lt_range'
  exact List.pairwise_map.mp hlt

end IndexedFrom

/-- Entries that follow index `i` replace everything above it. -/
theorem appendAndSync_entries {L : PersistentLog} {i : Nat} {es : List LogEntry}
    (hi : L.snapshotIndex ≤ i) (hne : es ≠ []) (hes : IndexedFrom i es) :
    (L.appendAndSync es).entries = L.entries.take (i - L.snapshotIndex) ++ es := by
  cases es with
  | nil => exact absurd rfl hne
  | cons e es =>
      have hfirst : e.index = i + 1 := hes 0 e rfl
      have hkeep : (if e.index > L.snapshotIndex then e.index - L.snapshotIndex - 1 else 0)
          = i - L.snapshotIndex := by
        split <;> omega
      rw [← hkeep]
      rfl

/-- Entries that follow an index below the snapshot replace everything. -/
theorem appendAndSync_entries_of_lt {L : PersistentLog} {i : Nat} {es : List LogEntry}
    (hi : i < L.snapshotIndex) (hne : es ≠ []) (hes : IndexedFrom i es) :
    (L.appendAndSync es).entries = es := by
  cases es with
  | nil => exact absurd rfl hne
  | cons e es =>
      have hfirst : e.index = i + 1 := hes 0 e rfl
      have hkeep : ¬ e.index > L.snapshotIndex := by omega
      simp only [PersistentLog.appendAndSync, appended, rewriteWalLocked, if_neg hkeep,
        List.take_zero, List.nil_append]

/-- The entries after an append depend on those before and on the snapshot. -/
theorem appendAndSync_entries_congr {L L' : PersistentLog} (hentries : L'.entries = L.entries)
    (hsnap : L'.snapshotIndex = L.snapshotIndex) (es : List LogEntry) :
    (L'.appendAndSync es).entries = (L.appendAndSync es).entries := by
  cases es with
  | nil => exact hentries
  | cons e es =>
      simp only [PersistentLog.appendAndSync, appended, rewriteWalLocked, hentries, hsnap]

instance (L : PersistentLog) : Decidable L.Aligned := inferInstanceAs (Decidable (IndexedFrom _ _))

/-- The terms do not go down along the log, from that of the snapshot on. -/
def Ascending (L : PersistentLog) : Prop :=
  (L.snapshotTerm :: L.entries.map LogEntry.term).Pairwise (· ≤ ·)

instance (L : PersistentLog) : Decidable L.Ascending :=
  inferInstanceAs (Decidable (List.Pairwise _ _))

theorem Ascending.snapshotTerm_le_lastTerm {L : PersistentLog} (h : L.Ascending) :
    L.snapshotTerm ≤ L.lastTerm := by
  unfold lastTerm
  cases hlast : L.entries.getLast? with
  | none => exact Nat.le_refl _
  | some e =>
      exact List.rel_of_pairwise_cons h (List.mem_map_of_mem (List.mem_of_getLast? hlast))

namespace Aligned

variable {L : PersistentLog} {e : LogEntry} {i : Nat} {es : List LogEntry}

theorem congr {L' : PersistentLog} (h : L.Aligned) (hentries : L'.entries = L.entries)
    (hsnap : L'.snapshotIndex = L.snapshotIndex) : L'.Aligned := by
  rw [Aligned, hentries, hsnap]
  exact h

theorem lastIndex (h : L.Aligned) : L.lastIndex = L.snapshotIndex + L.entries.length := by
  unfold PersistentLog.lastIndex
  cases hl : L.entries.getLast? with
  | none =>
      rw [List.getLast?_eq_none_iff] at hl
      rw [hl]
      rfl
  -- the code reads the index off the last entry, not off the length
  | some e => exact h.getLast?_index hl

/-- `at(i)` is the entry with the index `i`, and `termAt(i)` its term. -/
theorem of_entryAt (h : L.Aligned) (he : L.entryAt i = some e) :
    e.index = i ∧ L.termAt i = e.term := by
  unfold entryAt at he
  split at he
  · contradiction
  · next hi =>
    have hidx := h _ e he
    unfold termAt
    rw [if_neg (by omega), if_neg (by omega), he]
    exact ⟨by omega, rfl⟩

/-- The log reaches every index it knows a term for. -/
theorem le_lastIndex (h : L.Aligned) (hi : L.termAt i ≠ 0) : i ≤ L.lastIndex := by
  rw [h.lastIndex]
  unfold termAt at hi
  -- at the snapshot, below it, or above it, where the term is that of an entry
  split at hi
  · omega
  · split at hi
    · omega
    · cases hat : L.entries[i - L.snapshotIndex - 1]? with
      | none => rw [hat] at hi; exact absurd rfl hi
      | some e =>
          have := (List.getElem?_eq_some_iff.mp hat).1
          omega

/-- The log has an entry at every index it reaches above the snapshot. -/
theorem exists_mem_of_le (h : L.Aligned) (hlt : L.snapshotIndex < i) (hle : i ≤ L.lastIndex) :
    ∃ e ∈ L.entries, e.index = i ∧ L.termAt i = e.term := by
  rw [h.lastIndex] at hle
  have hat := List.getElem?_eq_getElem (l := L.entries) (i := i - L.snapshotIndex - 1) (by omega)
  have hentry : L.entryAt i = some L.entries[i - L.snapshotIndex - 1] := by
    rw [entryAt, if_neg (by omega), hat]
  exact ⟨_, List.mem_of_getElem? hat, h.of_entryAt hentry⟩

theorem entryAt_of_mem (h : L.Aligned) (he : e ∈ L.entries) : L.entryAt e.index = some e := by
  obtain ⟨hlt, hat⟩ := h.getElem?_of_mem he
  unfold entryAt
  rw [if_neg (by omega), hat]

theorem eq_of_index {e' : LogEntry} (h : L.Aligned) (he : e ∈ L.entries) (he' : e' ∈ L.entries)
    (hindex : e.index = e'.index) : e = e' := by
  have hat := h.entryAt_of_mem he
  rw [hindex, h.entryAt_of_mem he'] at hat
  exact (Option.some.inj hat).symm

theorem index_le_lastIndex (h : L.Aligned) (he : e ∈ L.entries) : e.index ≤ L.lastIndex := by
  obtain ⟨hlt, hat⟩ := h.getElem?_of_mem he
  have := (List.getElem?_eq_some_iff.mp hat).1
  rw [h.lastIndex]
  omega

/-- An entry up to `i` is among the first. -/
theorem mem_take (h : L.Aligned) (he : e ∈ L.entries) (hi : e.index ≤ i) :
    e ∈ L.entries.take (i - L.snapshotIndex) := by
  obtain ⟨hlt, hat⟩ := h.getElem?_of_mem he
  refine List.mem_of_getElem? (i := e.index - L.snapshotIndex - 1) ?_
  rw [List.getElem?_take_of_lt (by omega), hat]

/-- An entry above `i` is among the last. -/
theorem mem_drop (h : L.Aligned) (he : e ∈ L.entries) (hi : i < e.index) :
    e ∈ L.entries.drop (i - L.snapshotIndex) := by
  obtain ⟨hlt, hat⟩ := h.getElem?_of_mem he
  refine List.mem_of_getElem?
    (i := e.index - L.snapshotIndex - 1 - (i - L.snapshotIndex)) ?_
  rw [List.getElem?_drop, Nat.add_sub_cancel' (by omega), hat]

/-- Entries that follow index `i`, which the log reaches, keep it aligned. -/
theorem appendAndSync (h : L.Aligned) (hi : L.snapshotIndex ≤ i) (hlen : i ≤ L.lastIndex)
    (hes : IndexedFrom i es) : (L.appendAndSync es).Aligned := by
  by_cases hne : es = []
  · rw [hne]; exact h
  rw [h.lastIndex] at hlen
  rw [Aligned, appendAndSync_snapshotIndex, appendAndSync_entries hi hne hes]
  refine (h.take _).append ?_
  -- the new entries start where the kept ones end
  have hlen : L.snapshotIndex + min (i - L.snapshotIndex) L.entries.length = i := by omega
  rw [List.length_take, hlen]
  exact hes

theorem entriesAfter (h : L.Aligned) (hi : L.snapshotIndex ≤ i) (m : Nat) :
    IndexedFrom i (L.entriesAfter i m) := by
  have hdrop := h.drop (i - L.snapshotIndex)
  rw [Nat.add_sub_cancel' hi] at hdrop
  unfold PersistentLog.entriesAfter
  rw [if_neg (by omega)]
  simp only
  split
  · exact hdrop
  · exact hdrop.take m

theorem compactUpTo (h : L.Aligned) (i t : Nat) (bytes : Bytes) :
    (L.compactUpTo i t bytes).Aligned := by
  have hdrop := h.drop (i - L.snapshotIndex)
  rw [show L.snapshotIndex + (i - L.snapshotIndex) = max L.snapshotIndex i by omega] at hdrop
  rw [Aligned, compactUpTo_snapshotIndex, compactUpTo_entries]
  exact hdrop

end Aligned

theorem Ascending.termAt_le {L : PersistentLog} {i j : Nat} (h : L.Ascending) (ha : L.Aligned)
    (hi : L.snapshotIndex < i) (hij : i ≤ j) (hj : j ≤ L.lastIndex) :
    L.termAt i ≤ L.termAt j := by
  obtain ⟨e, he, hei, hterm⟩ := ha.exists_mem_of_le hi (hij.trans hj)
  obtain ⟨e', he', hej, hterm'⟩ := ha.exists_mem_of_le (hi.trans_le hij) hj
  obtain ⟨-, hat⟩ := ha.getElem?_of_mem he
  obtain ⟨-, hat'⟩ := ha.getElem?_of_mem he'
  have hpairs := List.pairwise_map.mp (List.pairwise_cons.mp h).2
  rw [hterm, hterm']
  -- the order is between different places, so equal indices are a case of their own
  rcases Nat.eq_or_lt_of_le hij with rfl | hlt
  · rw [ha.eq_of_index he he' (hei.trans hej.symm)]
  · obtain ⟨hk, heq⟩ := List.getElem?_eq_some_iff.mp hat
    obtain ⟨hk', heq'⟩ := List.getElem?_eq_some_iff.mp hat'
    have hle := List.pairwise_iff_getElem.mp hpairs _ _ hk hk' (by omega)
    rwa [heq, heq'] at hle

namespace Represents

variable {L : PersistentLog} {full : List LogEntry}

theorem aligned (h : L.Represents full) : L.Aligned := by
  have := h.indexed.drop L.snapshotIndex
  rw [Nat.zero_add] at this
  rw [Aligned, h.entries]
  exact this

theorem lastIndex (h : L.Represents full) : L.lastIndex = full.length := by
  have hs := h.snap_le
  rw [h.aligned.lastIndex, h.entries, List.length_drop]
  omega

theorem termAt (h : L.Represents full) {i : Nat} (hi : L.snapshotIndex ≤ i) :
    L.termAt i = Replica.termAt full i := by
  unfold PersistentLog.termAt
  split
  · next heq => rw [heq]; exact h.snapshotTerm
  · next hne =>
    rw [if_neg (by omega)]
    obtain ⟨j, rfl⟩ : ∃ j, i = j + 1 := ⟨i - 1, by omega⟩
    rw [h.entries, List.getElem?_drop, Replica.termAt,
      show L.snapshotIndex + (j + 1 - L.snapshotIndex - 1) = j by omega]
    cases full[j]? <;> rfl

theorem termAt_of_lt {i : Nat} (hi : i < L.snapshotIndex) : L.termAt i = 0 := by
  unfold PersistentLog.termAt
  rw [if_neg (by omega), if_pos hi]

theorem lastTerm (h : L.Represents full) : L.lastTerm = Replica.lastTerm full := by
  have hs := h.snap_le
  rw [Replica.lastTerm]
  unfold PersistentLog.lastTerm
  cases hl : L.entries.getLast? with
  | none =>
      -- nothing above the snapshot: the full log ends there
      rw [List.getLast?_eq_none_iff, h.entries, List.drop_eq_nil_iff] at hl
      rw [Nat.le_antisymm hl hs]
      exact h.snapshotTerm
  | some e =>
      rw [List.getLast?_eq_getElem?, h.entries, List.getElem?_drop, List.length_drop] at hl
      have hlt := (List.getElem?_eq_some_iff.mp hl).1
      obtain ⟨j, hj⟩ : ∃ j, full.length = j + 1 := ⟨full.length - 1, by omega⟩
      rw [show L.snapshotIndex + (full.length - L.snapshotIndex - 1) = j by omega] at hl
      rw [hj, Replica.termAt, hl]
      rfl

theorem entryAt (h : L.Represents full) {i : Nat} (hi : L.snapshotIndex < i) :
    L.entryAt i = full[i - 1]? := by
  unfold PersistentLog.entryAt
  rw [if_neg (by omega), h.entries, List.getElem?_drop]
  congr 1
  omega

theorem getElem?_of_entryAt (h : L.Represents full) {i : Nat} {e : LogEntry}
    (he : L.entryAt i = some e) : 0 < i ∧ full[i - 1]? = some e := by
  have hi : L.snapshotIndex < i := by
    unfold PersistentLog.entryAt at he
    split at he
    · contradiction
    · omega
  exact ⟨by omega, h.entryAt hi ▸ he⟩

theorem entriesAfter (h : L.Represents full) {i : Nat} (hi : L.snapshotIndex ≤ i) (m : Nat) :
    L.entriesAfter i m = if m = 0 then full.drop i else (full.drop i).take m := by
  unfold PersistentLog.entriesAfter
  rw [if_neg (by omega), h.entries, List.drop_drop, Nat.add_sub_cancel' hi]

theorem setHardState (h : L.Represents full) (t : Nat) (v : NodeId) :
    (L.setHardState t v).Represents full := ⟨h.snap_le, h.entries, h.snapshotTerm, h.indexed⟩

/-- Entries that follow index `i` replace everything above it. -/
theorem appendAndSync (h : L.Represents full) {i : Nat} {es : List LogEntry}
    (hi : L.snapshotIndex ≤ i) (hlen : i ≤ full.length) (hne : es ≠ []) (hes : IndexedFrom i es) :
    (L.appendAndSync es).Represents (full.take i ++ es) := by
  have htake : (full.take i).length = i := by rw [List.length_take]; omega
  refine ⟨?_, ?_, ?_, ?_⟩
  · rw [appendAndSync_snapshotIndex, List.length_append, htake]
    omega
  · rw [appendAndSync_snapshotIndex, List.drop_append_of_le_length (by omega), List.drop_take,
      ← h.entries, appendAndSync_entries hi hne hes]
  -- the cut is at or above the snapshot, so the term at its boundary stays
  · rw [appendAndSync_snapshotTerm, appendAndSync_snapshotIndex, h.snapshotTerm,
      Replica.termAt_eq_of_isPrefix (List.prefix_append _ _) (by omega),
      Replica.termAt_take hi hlen]
  · refine (h.indexed.take i).append ?_
    rw [htake, Nat.zero_add]
    exact hes

/-- A snapshot of `p` stands under whatever the log holds above its end. -/
theorem compactUpTo (h : L.Represents full) {p : List LogEntry} (hp : L.snapshotIndex < p.length)
    (hidx : IndexedFrom 0 p) (bytes : Bytes) :
    (L.compactUpTo p.length (Replica.lastTerm p) bytes).Represents (p ++ full.drop p.length) := by
  have hsnap : (L.compactUpTo p.length (Replica.lastTerm p) bytes).snapshotIndex = p.length := by
    rw [compactUpTo_snapshotIndex]; omega
  refine ⟨?_, ?_, ?_, ?_⟩
  · rw [hsnap, List.length_append]; omega
  · rw [hsnap, List.drop_left, compactUpTo_entries, h.entries, List.drop_drop]
    congr 1
    omega
  · rw [hsnap, Replica.termAt_eq_of_isPrefix (List.prefix_append _ _) (Nat.le_refl _)]
    -- a snapshot at or below the one held would be ignored
    unfold PersistentLog.compactUpTo
    rw [if_neg (by omega)]
    rfl
  · refine hidx.append ?_
    have := h.indexed.drop p.length
    rwa [Nat.zero_add] at this ⊢

end Represents

end PersistentLog

end KvRaft
