import KvRaft.Disk

/-!
# KvRaft.Crash

A crash inside an operation of the log.  An operation replaces files one after
the other, each by a rename, so a crash leaves the directory with some of them
replaced (`LogOp.crash`).

* `crash_atomic_iff` — the directory then loads the log as it was before or
  after the operation, at every point of the crash, unless a log that holds
  entries is compacted;
* `crash_misaligns` — a crash between the two files of `compactUpTo` leaves a
  new snapshot with the old entries.
-/

namespace KvRaft

open PersistentLog

/-! ## Logs in use -/

/-- The values of the log fit the source's integer types. -/
structure PersistentLog.Fits (L : PersistentLog) : Prop where
  currentTerm : L.currentTerm < 2 ^ 64
  votedFor : L.votedFor < 2 ^ 32
  snapshotIndex : L.snapshotIndex < 2 ^ 64
  snapshotTerm : L.snapshotTerm < 2 ^ 64
  entries : ∀ e ∈ L.entries, e.Fits

/-- The state of a log between two operations. -/
structure PersistentLog.Valid (L : PersistentLog) : Prop where
  aligned : L.Aligned
  synced : L.Synced
  fits : L.Fits

namespace PersistentLog

variable {L : PersistentLog}

/-- The directory of a log that fits holds what fits. -/
theorem Synced.dir_fits (h : L.Synced) (hfits : L.Fits) : L.dir.Fits := by
  refine ⟨fun hs hhs => ?_, fun s hs => ?_, fun es hes => ?_⟩
  · have hterm := congrArg PersistentLog.currentTerm h
    have hvoted := congrArg PersistentLog.votedFor h
    simp only [PersistentLog.load, Option.mem_def.mp hhs, Option.map_some,
      Option.getD_some] at hterm hvoted
    exact ⟨hterm ▸ hfits.currentTerm, hvoted ▸ hfits.votedFor⟩
  · have hindex := congrArg PersistentLog.snapshotIndex h
    have hterm := congrArg PersistentLog.snapshotTerm h
    simp only [PersistentLog.load, Option.mem_def.mp hs, Option.map_some,
      Option.getD_some] at hindex hterm
    exact ⟨hindex ▸ hfits.snapshotIndex, hterm ▸ hfits.snapshotTerm⟩
  · have hentries := congrArg PersistentLog.entries h
    simp only [PersistentLog.load, Option.mem_def.mp hes, Option.getD_some] at hentries
    exact hentries ▸ hfits.entries

/-- A valid log is what its files load. -/
theorem Valid.loadFromDisk (h : L.Valid) : L.dir.files.loadFromDisk = L := by
  rw [Files.loadFromDisk, directory_files (h.synced.dir_fits h.fits)]
  exact h.synced

end PersistentLog

/-! ## Operations -/

inductive LogOp
  | setHardState (term : Nat) (votedFor : NodeId)
  | appendAndSync (newEntries : List LogEntry)
  | compactUpTo (index termAtIndex : Nat) (snapshotBytes : Bytes)

/-- One file, written aside and renamed. -/
inductive Replacement
  | hardstate (contents : Bytes)
  | snapshotBin (contents : Bytes)
  | walLog (contents : Bytes)

def Files.replace (f : Files) : Replacement → Files
  | .hardstate contents => { f with hardstate := some contents }
  | .snapshotBin contents => { f with snapshotBin := some contents }
  | .walLog contents => { f with walLog := some contents }

namespace LogOp

def run (L : PersistentLog) : LogOp → PersistentLog
  | setHardState term votedFor => L.setHardState term votedFor
  | appendAndSync newEntries => L.appendAndSync newEntries
  | compactUpTo index termAtIndex snapshotBytes => L.compactUpTo index termAtIndex snapshotBytes

/-- The files an operation replaces, in order. -/
def replacements (L : PersistentLog) : LogOp → List Replacement
  | setHardState term votedFor => [.hardstate (hardStateBytes term votedFor)]
  | appendAndSync [] => []
  | appendAndSync (e :: es) => [.walLog (walBytes (L.appended e.index (e :: es)).entries)]
  | compactUpTo index termAtIndex snapshotBytes =>
      if index ≤ L.snapshotIndex then []
      else [.snapshotBin (SnapshotFile.encode ⟨index, termAtIndex, snapshotBytes⟩),
        .walLog (walBytes (L.compacted index termAtIndex).entries)]

/-- The files after a crash that lets `k` replacements happen. -/
def crash (L : PersistentLog) (op : LogOp) (k : Nat) : Files :=
  ((op.replacements L).take k).foldl Files.replace L.dir.files

/-- Without a crash the files are those of the log in memory. -/
theorem foldl_replacements (L : PersistentLog) (op : LogOp) :
    (op.replacements L).foldl Files.replace L.dir.files = (op.run L).dir.files := by
  cases op with
  | setHardState term votedFor => rfl
  | appendAndSync es => cases es <;> rfl
  | compactUpTo index termAtIndex bytes =>
      simp only [replacements, run, PersistentLog.compactUpTo]
      split <;> rfl

/-- Arguments as a node passes them: in range, and new entries follow an index
the log reaches. -/
def Valid (L : PersistentLog) : LogOp → Prop
  | setHardState term votedFor => term < 2 ^ 64 ∧ votedFor < 2 ^ 32
  | appendAndSync newEntries => (∀ e ∈ newEntries, e.Fits) ∧ (newEntries ≠ [] →
      ∃ i, L.snapshotIndex ≤ i ∧ i ≤ L.lastIndex ∧ IndexedFrom i newEntries)
  | compactUpTo index termAtIndex _ => index < 2 ^ 64 ∧ termAtIndex < 2 ^ 64

/-- Every operation keeps a log valid. -/
theorem Valid.run {L : PersistentLog} {op : LogOp} (hop : op.Valid L) (h : L.Valid) :
    (op.run L).Valid := by
  cases op with
  | setHardState term votedFor =>
      exact ⟨h.aligned, h.synced.setHardState term votedFor,
        { h.fits with currentTerm := hop.1, votedFor := hop.2 }⟩
  | appendAndSync es =>
      obtain ⟨hfits, hfollow⟩ := hop
      refine ⟨?_, h.synced.appendAndSync es, ?_⟩
      · -- entries that follow the log keep it aligned
        by_cases hne : es = []
        · rw [hne]; exact h.aligned
        · obtain ⟨i, hsnap, hlast, hindexed⟩ := hfollow hne
          exact h.aligned.appendAndSync hsnap hlast hindexed
      · refine ⟨?_, ?_, ?_, ?_, fun e he => ?_⟩
        · simpa [LogOp.run] using h.fits.currentTerm
        · simpa [LogOp.run] using h.fits.votedFor
        · simpa [LogOp.run] using h.fits.snapshotIndex
        · simpa [LogOp.run] using h.fits.snapshotTerm
        · exact (mem_appendAndSync_entries _ _ he).elim (h.fits.entries e) (hfits e)
  | compactUpTo i t bytes =>
      refine ⟨h.aligned.compactUpTo i t bytes, h.synced.compactUpTo i t bytes, ?_⟩
      change (L.compactUpTo i t bytes).Fits
      unfold PersistentLog.compactUpTo
      -- a snapshot that is not newer is not written
      split
      · exact h.fits
      · exact ⟨h.fits.currentTerm, h.fits.votedFor, hop.1, hop.2,
          fun e he => h.fits.entries e (List.mem_of_mem_drop he)⟩

end LogOp

/-! ## What a crash leaves -/

/-- `L'` has the hard state and the snapshot of `L`, and answers `at` and
`termAt` alike above it. -/
structure PersistentLog.Same (L L' : PersistentLog) : Prop where
  currentTerm : L'.currentTerm = L.currentTerm
  votedFor : L'.votedFor = L.votedFor
  snapshotIndex : L'.snapshotIndex = L.snapshotIndex
  entryAt : ∀ i, L.snapshotIndex < i → L'.entryAt i = L.entryAt i
  termAt : ∀ i, L.snapshotIndex < i → L'.termAt i = L.termAt i

theorem PersistentLog.Same.of_entries {L L' : PersistentLog}
    (hterm : L'.currentTerm = L.currentTerm)
    (hvoted : L'.votedFor = L.votedFor) (hsnap : L'.snapshotIndex = L.snapshotIndex)
    (hentries : L'.entries = L.entries) : L.Same L' := by
  refine ⟨hterm, hvoted, hsnap, fun i _ => ?_, fun i hi => ?_⟩
  · rw [PersistentLog.entryAt, PersistentLog.entryAt, hsnap, hentries]
  · have hne : i ≠ L.snapshotIndex := by omega
    rw [PersistentLog.termAt, PersistentLog.termAt, hsnap, hentries, if_neg hne, if_neg hne]

theorem PersistentLog.Same.refl (L : PersistentLog) : L.Same L := .of_entries rfl rfl rfl rfl

namespace LogOp

variable {L : PersistentLog} {op : LogOp}

/-- The files load a log that is aligned and the same as before or after the
operation. -/
def Recovers (L : PersistentLog) (op : LogOp) (f : Files) : Prop :=
  f.loadFromDisk.Aligned ∧ (L.Same f.loadFromDisk ∨ (op.run L).Same f.loadFromDisk)

/-- A crash before the first file is replaced. -/
theorem recovers_crash_zero (h : L.Valid) : op.Recovers L (op.crash L 0) := by
  have hload : (op.crash L 0).loadFromDisk = L := h.loadFromDisk
  rw [Recovers, hload]
  exact ⟨h.aligned, .inl (.refl L)⟩

/-- A crash after the last file is replaced. -/
theorem recovers_crash_of_le (h : L.Valid) (hop : op.Valid L) {k : Nat}
    (hk : (op.replacements L).length ≤ k) : op.Recovers L (op.crash L k) := by
  have hrun := hop.run h
  have hload : (op.crash L k).loadFromDisk = op.run L := by
    rw [crash, List.take_of_length_le hk, foldl_replacements]
    exact hrun.loadFromDisk
  rw [Recovers, hload]
  exact ⟨hrun.aligned, .inr (.refl _)⟩

/-- Between the two files of `compactUpTo` the directory holds the new snapshot
and the old entries. -/
theorem loadFromDisk_crash_one (h : L.Valid) {i t : Nat} {bytes : Bytes}
    (hop : (compactUpTo i t bytes).Valid L) (hlt : L.snapshotIndex < i) :
    ((compactUpTo i t bytes).crash L 1).loadFromDisk =
      { L with
        dir := { L.dir with snapshot := some ⟨i, t, bytes⟩ }
        snapshotIndex := i
        snapshotTerm := t } := by
  have hfits := h.synced.dir_fits h.fits
  have hdir : Directory.Fits { L.dir with snapshot := some ⟨i, t, bytes⟩ } :=
    { hfits with snapshot := fun s hs => by cases hs; exact hop }
  -- only the first of the two files has been replaced
  have hfiles : (compactUpTo i t bytes).crash L 1 =
      Directory.files { L.dir with snapshot := some ⟨i, t, bytes⟩ } := by
    rw [crash, replacements, if_neg (Nat.not_le_of_lt hlt)]
    rfl
  rw [hfiles, Files.loadFromDisk, directory_files hdir]
  -- the rest is what was loaded before
  have hsynced : load L.dir = L := h.synced
  have hentries : (load L.dir).entries = L.entries := by rw [hsynced]
  have hterm : (load L.dir).currentTerm = L.currentTerm := by rw [hsynced]
  have hvoted : (load L.dir).votedFor = L.votedFor := by rw [hsynced]
  rw [← hentries, ← hterm, ← hvoted]
  rfl

/-- The operation does not move the snapshot of a log that holds entries. -/
def KeepsEntries (L : PersistentLog) : LogOp → Prop
  | compactUpTo index _ _ => L.snapshotIndex < index → L.entries = []
  | _ => True

instance (L : PersistentLog) : (op : LogOp) → Decidable (op.KeepsEntries L)
  | compactUpTo .. => inferInstanceAs (Decidable (_ → _))
  | setHardState .. => isTrue trivial
  | appendAndSync .. => isTrue trivial

end LogOp

/-- **Operations are atomic under crashes**, exactly if they do not compact a
log that holds entries: whichever files were replaced, the directory loads an
aligned log that is the one before or after the operation. -/
theorem crash_atomic_iff {L : PersistentLog} (h : L.Valid) {op : LogOp} (hop : op.Valid L) :
    (∀ k, op.Recovers L (op.crash L k)) ↔ op.KeepsEntries L := by
  -- an operation that replaces at most one file has no point in between
  have hsingle : (op.replacements L).length ≤ 1 → ∀ k, op.Recovers L (op.crash L k) := by
    rintro hlen (_ | k)
    · exact LogOp.recovers_crash_zero h
    · exact LogOp.recovers_crash_of_le h hop (by omega)
  cases op with
  | setHardState => exact iff_of_true (hsingle (Nat.le_refl 1)) trivial
  | appendAndSync es =>
      refine iff_of_true (hsingle ?_) trivial
      cases es <;> simp [LogOp.replacements]
  | compactUpTo i t bytes =>
      by_cases hle : i ≤ L.snapshotIndex
      · refine iff_of_true (hsingle ?_) fun hlt => absurd hle (Nat.not_le_of_lt hlt)
        simp [LogOp.replacements, hle]
      have hload := LogOp.loadFromDisk_crash_one h hop (Nat.lt_of_not_le hle)
      constructor
      · -- entries that start at the old snapshot do not follow the new one
        intro hall _
        have haligned := (hall 1).1
        rw [hload] at haligned
        cases hes : L.entries with
        | nil => rfl
        | cons e es =>
            have hold := h.aligned 0 e (by rw [hes]; rfl)
            have hnew := haligned 0 e (by rw [hes]; rfl)
            simp only at hnew
            omega
      · intro hempty k
        have hnil := hempty (Nat.lt_of_not_le hle)
        match k with
        | 0 => exact LogOp.recovers_crash_zero h
        | 1 =>
            have hentries := L.compactUpTo_entries t i bytes
            rw [hnil, List.drop_nil] at hentries
            rw [LogOp.Recovers, hload]
            refine ⟨?_, .inr (.of_entries ?_ ?_ ?_ ?_)⟩
            · rw [Aligned, hnil]
              exact .nil i
            · exact (L.compactUpTo_currentTerm t i bytes).symm
            · exact (L.compactUpTo_votedFor t i bytes).symm
            · exact ((L.compactUpTo_snapshotIndex t i bytes).trans
                (Nat.max_eq_right (Nat.le_of_not_le hle))).symm
            · exact hnil.trans hentries.symm
        | k + 2 =>
            refine LogOp.recovers_crash_of_le h hop ?_
            simp [LogOp.replacements, hle]

/-- A log with one entry, started on an empty directory. -/
def oneEntry : PersistentLog := (load .empty).appendAndSync [⟨1, 1, .command, [7]⟩]

theorem oneEntry_valid : oneEntry.Valid where
  aligned := by
    refine PersistentLog.Aligned.appendAndSync (.nil 0) (Nat.le_refl 0) (Nat.le_refl 0)
      (.singleton rfl)
  synced := rfl
  fits := by
    refine ⟨by decide, by decide, by decide, by decide, fun e he => ?_⟩
    rw [List.mem_singleton.mp he]
    exact ⟨by decide, by decide, by decide⟩

theorem crash_atomic_of_setHardState :
    oneEntry.Valid ∧ ∀ k,
      (LogOp.setHardState 2 3).Recovers oneEntry ((LogOp.setHardState 2 3).crash oneEntry k) := by
  have hop : (LogOp.setHardState 2 3).Valid oneEntry := ⟨by decide, by decide⟩
  exact ⟨oneEntry_valid, (crash_atomic_iff oneEntry_valid hop).mpr trivial⟩

/-- A crash after `snapshot.bin` is replaced: the snapshot covers index 1, and
`at(2)` is the entry with index 1. -/
theorem crash_misaligns :
    oneEntry.Valid ∧ (LogOp.compactUpTo 1 1 [9]).Valid oneEntry ∧
      ((LogOp.compactUpTo 1 1 [9]).crash oneEntry 1).loadFromDisk.snapshotIndex = 1 ∧
      ((LogOp.compactUpTo 1 1 [9]).crash oneEntry 1).loadFromDisk.entries =
        [⟨1, 1, .command, [7]⟩] ∧
      ((LogOp.compactUpTo 1 1 [9]).crash oneEntry 1).loadFromDisk.entryAt 2 =
        some ⟨1, 1, .command, [7]⟩ ∧
      ¬ (LogOp.compactUpTo 1 1 [9]).Recovers oneEntry
        ((LogOp.compactUpTo 1 1 [9]).crash oneEntry 1) := by
  have hat : ((LogOp.compactUpTo 1 1 [9]).crash oneEntry 1).loadFromDisk.entryAt 2 =
      some ⟨1, 1, .command, [7]⟩ := by decide +kernel
  refine ⟨oneEntry_valid, ⟨by decide, by decide⟩, by decide +kernel, by decide +kernel, hat,
    fun h => ?_⟩
  have := (h.1.of_entryAt hat).1
  contradiction

end KvRaft
