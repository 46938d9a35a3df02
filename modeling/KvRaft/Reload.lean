import KvRaft.Crash
import KvRaft.Drain

/-!
# KvRaft.Reload

What a directory loads, down to the bytes of its files.

* `reload_eq` — after any operations on a log that was started on an empty
  directory, the directory loads the log that is in memory, whatever the arguments
  were, with the bytes of the last compaction that had an effect;
* `nextEntry` — one turn of the loop over `wal.log`, which always ends
  (`drains_nextEntry_iff`);
* `torn_tail` — of a `wal.log` that was cut anywhere the loop yields the records
  that are there as a whole.
-/

namespace KvRaft

open PersistentLog

/-! ## Operations on the files -/

/-- A directory without files. -/
def Files.empty : Files := ⟨none, none, none⟩

/-- A log in memory and the files of its directory. -/
structure Stored where
  log : PersistentLog
  files : Files

namespace Stored

/-- A log that is started on an empty directory. -/
def empty : Stored := ⟨Files.empty.loadFromDisk, .empty⟩

def perform (s : Stored) (op : LogOp) : Stored :=
  ⟨op.run s.log, (op.replacements s.log).foldl Files.replace s.files⟩

def after (ops : List LogOp) : Stored := ops.foldl perform empty

end Stored

namespace LogOp

/-- Arguments of the source's types, the data of entries with a 32-bit length. -/
def Fits : LogOp → Prop
  | setHardState term votedFor => term < 2 ^ 64 ∧ votedFor < 2 ^ 32
  | appendAndSync newEntries => ∀ e ∈ newEntries, e.Fits
  | compactUpTo index termAtIndex _ => index < 2 ^ 64 ∧ termAtIndex < 2 ^ 64

instance : (op : LogOp) → Decidable op.Fits
  | setHardState .. => inferInstanceAs (Decidable (_ ∧ _))
  | appendAndSync newEntries => inferInstanceAs (Decidable (∀ e ∈ newEntries, e.Fits))
  | compactUpTo .. => inferInstanceAs (Decidable (_ ∧ _))

/-- The bytes of the last `compactUpTo` that has an effect, on a log whose
snapshot is at `snapshotIndex`. -/
def lastCompacted (snapshotIndex : Nat) : List LogOp → Option Bytes
  | [] => none
  | compactUpTo index _ snapshotBytes :: ops =>
      if index ≤ snapshotIndex then lastCompacted snapshotIndex ops
      else some ((lastCompacted index ops).getD snapshotBytes)
  | _ :: ops => lastCompacted snapshotIndex ops

theorem Fits.run {L : PersistentLog} {op : LogOp} (hop : op.Fits) (h : L.Fits) :
    (op.run L).Fits := by
  cases op with
  | setHardState term votedFor => exact { h with currentTerm := hop.1, votedFor := hop.2 }
  | appendAndSync es =>
      constructor
      · simpa [LogOp.run] using h.currentTerm
      · simpa [LogOp.run] using h.votedFor
      · simpa [LogOp.run] using h.snapshotIndex
      · simpa [LogOp.run] using h.snapshotTerm
      · exact fun e he => (mem_appendAndSync_entries _ _ he).elim (h.entries e) (hop e)
  | compactUpTo i t bytes =>
      change (L.compactUpTo i t bytes).Fits
      unfold PersistentLog.compactUpTo
      split
      · exact h
      · exact { h with
          snapshotIndex := hop.1
          snapshotTerm := hop.2
          entries := fun e he => h.entries e (List.mem_of_mem_drop he) }

theorem synced_run {L : PersistentLog} (h : L.Synced) (op : LogOp) : (op.run L).Synced := by
  cases op with
  | setHardState term votedFor => exact h.setHardState term votedFor
  | appendAndSync es => exact h.appendAndSync es
  | compactUpTo i t bytes => exact h.compactUpTo i t bytes

/-- Only a compaction with an effect touches the stored snapshot. -/
theorem loadSnapshotBytes_foldl (L : PersistentLog) (ops : List LogOp) :
    (ops.foldl run L).loadSnapshotBytes =
      (lastCompacted L.snapshotIndex ops).or L.loadSnapshotBytes := by
  induction ops generalizing L with
  | nil => rfl
  | cons op ops ih =>
      rw [List.foldl_cons, ih]
      cases op with
      | setHardState term votedFor => rfl
      | appendAndSync es => simp [run, lastCompacted, loadSnapshotBytes]
      | compactUpTo i t bytes =>
          simp only [run, lastCompacted, loadSnapshotBytes, compactUpTo_snapshot,
            compactUpTo_snapshotIndex]
          by_cases hle : i ≤ L.snapshotIndex
          · simp [hle]
          · rw [if_neg hle, if_neg hle, Nat.max_eq_right (by omega)]
            cases lastCompacted i ops <;> simp

end LogOp

namespace Stored

/-- What every operation keeps: the files are those of the log in memory, and
its values fit them. -/
structure Sound (s : Stored) : Prop where
  synced : s.log.Synced
  fits : s.log.Fits
  files : s.files = s.log.dir.files

theorem sound_empty : empty.Sound where
  synced := rfl
  fits := ⟨by decide, by decide, by decide, by decide, fun _ he => by cases he⟩
  files := rfl

theorem Sound.perform {s : Stored} (h : s.Sound) {op : LogOp} (hop : op.Fits) :
    (s.perform op).Sound where
  synced := LogOp.synced_run h.synced op
  fits := hop.run h.fits
  files := by
    rw [Stored.perform, h.files]
    exact LogOp.foldl_replacements s.log op

/-- The files of a sound log load it. -/
theorem Sound.loadFromDisk {s : Stored} (h : s.Sound) : s.files.loadFromDisk = s.log := by
  rw [h.files, Files.loadFromDisk, directory_files (h.synced.dir_fits h.fits)]
  exact h.synced

theorem sound_foldl {s : Stored} (h : s.Sound) {ops : List LogOp} (hops : ∀ op ∈ ops, op.Fits) :
    (ops.foldl Stored.perform s).Sound := by
  induction ops generalizing s with
  | nil => exact h
  | cons op ops ih =>
      exact ih (h.perform (hops op List.mem_cons_self))
        fun op' hop' => hops op' (List.mem_cons_of_mem op hop')

theorem log_foldl (s : Stored) (ops : List LogOp) :
    (ops.foldl Stored.perform s).log = ops.foldl LogOp.run s.log := by
  induction ops generalizing s with
  | nil => rfl
  | cons op ops ih => exact ih (s.perform op)

end Stored

/-- **Reloading gives the log in memory**: after any operations with arguments of
the source's types on a log started on an empty directory, the files load the same
hard state, the same snapshot boundary and the same entries, and the bytes of the
last `compactUpTo` that had an effect, none if there was none. -/
theorem reload_eq {ops : List LogOp} (hops : ∀ op ∈ ops, op.Fits) :
    (Stored.after ops).files.loadFromDisk.currentTerm = (Stored.after ops).log.currentTerm ∧
      (Stored.after ops).files.loadFromDisk.votedFor = (Stored.after ops).log.votedFor ∧
      (Stored.after ops).files.loadFromDisk.snapshotIndex =
        (Stored.after ops).log.snapshotIndex ∧
      (Stored.after ops).files.loadFromDisk.snapshotTerm = (Stored.after ops).log.snapshotTerm ∧
      (Stored.after ops).files.loadFromDisk.entries = (Stored.after ops).log.entries ∧
      (Stored.after ops).files.loadFromDisk.loadSnapshotBytes = LogOp.lastCompacted 0 ops := by
  have hload := (Stored.sound_foldl Stored.sound_empty hops).loadFromDisk
  have hbytes := LogOp.loadSnapshotBytes_foldl Stored.empty.log ops
  rw [← Stored.log_foldl] at hbytes
  unfold Stored.after
  rw [hload]
  refine ⟨rfl, rfl, rfl, rfl, rfl, hbytes.trans ?_⟩
  exact Option.or_none

/-- Two compactions, the second of them too low to have an effect, after entries
whose indices leave a gap. -/
theorem reload_eq_of_gap :
    let ops : List LogOp := [.setHardState 3 2, .appendAndSync [⟨3, 7, .command, [1]⟩],
      .compactUpTo 4 2 [9], .appendAndSync [⟨3, 20, .noOp, []⟩], .compactUpTo 2 1 [8]]
    (Stored.after ops).files.loadFromDisk.entries = [⟨3, 20, .noOp, []⟩] ∧
      (Stored.after ops).files.loadFromDisk.loadSnapshotBytes = some [9] := by
  intro ops
  have hops : ∀ op ∈ ops, op.Fits := by decide
  obtain ⟨-, -, -, -, hentries, hbytes⟩ := reload_eq hops
  exact ⟨hentries.trans (by decide), hbytes.trans (by decide)⟩

/-! ## The loop over the log file -/

/-- One turn of the loop over `wal.log`: the next entry and what is unread after
it; none at the end of the data and where `decode` throws. -/
def nextEntry (r : Bytes) : Option (LogEntry × Bytes) :=
  if r = [] then none else (LogEntry.decode r).toOption

theorem nextEntry_eq_some {r rest : Bytes} {e : LogEntry} :
    nextEntry r = some (e, rest) ↔ r ≠ [] ∧ LogEntry.decode r = .ok (e, rest) := by
  unfold nextEntry
  by_cases hnil : r = []
  · simp [hnil]
  · rw [if_neg hnil]
    cases LogEntry.decode r <;> simp [Except.toOption, hnil]

/-- A decoded record was not empty. -/
theorem length_lt_of_nextEntry (r : Bytes) (e : LogEntry) (rest : Bytes)
    (h : nextEntry r = some (e, rest)) : rest.length < r.length := by
  rw [LogEntry.consumes _ _ _ (nextEntry_eq_some.mp h).2, List.length_append]
  have := List.length_pos_of_ne_nil e.encode_ne_nil
  omega

theorem readEntries_eq_drain (turns : Nat) (r : Bytes) :
    readEntries turns r = (drain nextEntry turns r).1 := by
  induction turns generalizing r with
  | zero => rfl
  | succ turns ih =>
      rw [readEntries, drain, nextEntry]
      by_cases hnil : r = []
      · rw [if_pos hnil, if_pos hnil]
      · rw [if_neg hnil, if_neg hnil]
        cases LogEntry.decode r with
        | error msg => rfl
        | ok p => simp only [Except.toOption, ih]

/-- The loop ends, and there is one way for it to run. -/
theorem drains_nextEntry_iff {data : Bytes} {es : List LogEntry} :
    (∃ rest, Drains nextEntry data es rest) ↔ readWal data = es := by
  have hdrains := drains_drain length_lt_of_nextEntry (Nat.le_refl data.length)
  rw [readWal, readEntries_eq_drain]
  constructor
  · rintro ⟨rest, h⟩
    exact (hdrains.unique h).1
  · rintro rfl
    exact ⟨_, hdrains⟩

/-- A record that is cut does not decode. -/
theorem nextEntry_take {e : LogEntry} (h : e.Fits) {cut : Nat} (hcut : cut < e.encode.length) :
    nextEntry (e.encode.take cut) = none := by
  obtain ⟨msg, hmsg⟩ := LogEntry.consumes.error_of_take (fun _ => LogEntry.decodes)
    (fun _ _ _ => LogEntry.fits_of_decode) h hcut
  rw [nextEntry, hmsg]
  exact ite_self none

theorem nextEntry_encode {e : LogEntry} (h : e.Fits) (rest : Bytes) :
    nextEntry (e.encode ++ rest) = some (e, rest) :=
  nextEntry_eq_some.mpr ⟨by simp [e.encode_ne_nil], LogEntry.decodes h rest⟩

theorem walBytes_cons (e : LogEntry) (es : List LogEntry) :
    walBytes (e :: es) = e.encode ++ walBytes es := List.flatMap_cons

/-- The records that lie within the first `cut` bytes are a front of the list, and
the loop yields them. -/
theorem exists_drains_take {es : List LogEntry} (hfits : ∀ e ∈ es, e.Fits) (cut : Nat) :
    ∃ k ≤ es.length, (∃ rest, Drains nextEntry ((walBytes es).take cut) (es.take k) rest) ∧
      ∀ i < es.length, i < k ↔ (walBytes (es.take (i + 1))).length ≤ cut := by
  -- induction on the records: the cut lies in the first one, or behind it
  induction es generalizing cut with
  | nil => exact ⟨0, Nat.le_refl 0, ⟨_, .stop (by simp [walBytes, nextEntry])⟩, by simp⟩
  | cons e es ih =>
      have hfirst := hfits e List.mem_cons_self
      have hlength (i : Nat) : (walBytes ((e :: es).take (i + 1))).length =
          e.encode.length + (walBytes (es.take i)).length := by
        rw [List.take_succ_cons, walBytes_cons, List.length_append]
      by_cases hcut : cut < e.encode.length
      · -- the first record is cut, or there is nothing left of it
        refine ⟨0, Nat.zero_le _, ⟨_, .stop ?_⟩, fun i _ => ?_⟩
        · rw [walBytes_cons, List.take_append_of_le_length (Nat.le_of_lt hcut)]
          exact nextEntry_take hfirst hcut
        · rw [hlength]
          omega
      · obtain ⟨k, hk, ⟨rest, hdrains⟩, hwhole⟩ :=
          ih (fun x hx => hfits x (List.mem_cons_of_mem e hx)) (cut - e.encode.length)
        refine ⟨k + 1, Nat.succ_le_succ hk, ⟨rest, ?_⟩, fun i hi => ?_⟩
        · -- the first record is whole, so the loop takes a turn
          rw [walBytes_cons, List.take_append, List.take_of_length_le (by omega)]
          exact .turn (nextEntry_encode hfirst _) hdrains
        · rw [hlength]
          cases i with
          | zero => simp [walBytes]; omega
          | succ i =>
              have := hwhole i (by simpa using hi)
              omega

/-- **A torn tail loses only the torn record**: of a `wal.log` with any entries
that is cut after any number of bytes, the loop ends with the entries whose bytes
lie wholly before the cut, in order, and these are the entries of the loaded log. -/
theorem torn_tail {es : List LogEntry} (hfits : ∀ e ∈ es, e.Fits) (cut : Nat) (f : Files) :
    ∃ k ≤ es.length, (∃ rest, Drains nextEntry ((walBytes es).take cut) (es.take k) rest) ∧
      { f with walLog := some ((walBytes es).take cut) }.loadFromDisk.entries = es.take k ∧
      ∀ i < es.length, i < k ↔ (walBytes (es.take (i + 1))).length ≤ cut := by
  obtain ⟨k, hk, hdrains, hwhole⟩ := exists_drains_take hfits cut
  exact ⟨k, hk, hdrains, drains_nextEntry_iff.mp hdrains, hwhole⟩

/-- Two records, the second one cut inside the length of its data. -/
theorem torn_tail_of_length :
    let es : List LogEntry := [⟨1, 1, .command, [7]⟩, ⟨1, 2, .command, [8, 9]⟩]
    (∀ e ∈ es, e.Fits) ∧
      (Files.loadFromDisk ⟨none, none, some ((walBytes es).take 41)⟩).entries = es.take 1 := by
  intro es
  have hfits : ∀ e ∈ es, e.Fits := by decide
  refine ⟨hfits, ?_⟩
  obtain ⟨k, hk, -, hentries, hwhole⟩ := torn_tail hfits 41 .empty
  have hfirst := (hwhole 0 (by decide)).mpr (by decide)
  have hsecond := mt (hwhole 1 (by decide)).mp (by decide)
  obtain rfl : k = 1 := by omega
  exact hentries

end KvRaft
