import KvRaft.PersistentLog

/-!
# KvRaft.Disk

The directory of a log as bytes: the contents of `hardstate`, `snapshot.bin`
and `wal.log`, how they are written (`Directory.files`) and how
`loadFromDisk` reads them (`Files.loadFromDisk`).

`directory_files`: records that fit the widths of the files are read back as
they were written, so what is proved about `Directory` holds of the bytes.
-/

namespace KvRaft

/-- Contents of the files of a directory; `none` is a file that does not exist. -/
structure Files where
  hardstate : Option Bytes
  snapshotBin : Option Bytes
  walLog : Option Bytes
  deriving DecidableEq

/-! ## Writing -/

def hardStateBytes (currentTerm : Nat) (votedFor : NodeId) : Bytes :=
  putU64 currentTerm ++ putU32 votedFor

def SnapshotFile.encode (s : SnapshotFile) : Bytes := (putU64 s.index ++ putU64 s.term) ++ s.bytes

def walBytes (entries : List LogEntry) : Bytes := entries.flatMap LogEntry.encode

/-- The files that hold the records of a directory. -/
def Directory.files (d : Directory) : Files where
  hardstate := d.hardstate.map fun h => hardStateBytes h.1 h.2
  snapshotBin := d.snapshot.map SnapshotFile.encode
  walLog := d.wal.map walBytes

/-! ## Reading -/

def getHardState : Get (Nat × NodeId) := do
  let currentTerm ← getU64
  let votedFor ← getU32
  return (currentTerm, votedFor)

def readHardState (data : Bytes) : Option (Nat × NodeId) :=
  if data.length ≥ 12 then (getHardState.run' data).toOption else none

def getSnapshotHeader : Get (Nat × Nat) := do
  let snapshotIndex ← getU64
  let snapshotTerm ← getU64
  return (snapshotIndex, snapshotTerm)

/-- What follows the 16 bytes of the header is the state machine's. -/
def readSnapshot (data : Bytes) : Option SnapshotFile :=
  if data.length ≥ 16 then
    (getSnapshotHeader.run' data).toOption.map fun h => ⟨h.1, h.2, data.drop 16⟩
  else none

/-- The loop over `wal.log`: it ends with the data or with the first record
that does not decode.  A record takes at least one byte, so the length of the
data bounds the number of turns. -/
def readEntries : Nat → Bytes → List LogEntry
  | 0, _ => []
  | turns + 1, r =>
      if r = [] then []
      else match LogEntry.decode r with
        | .ok (e, rest) => e :: readEntries turns rest
        | .error _ => []

def readWal (data : Bytes) : List LogEntry := readEntries data.length data

/-- The records the files hold. -/
def Files.directory (f : Files) : Directory where
  hardstate := f.hardstate.bind readHardState
  snapshot := f.snapshotBin.bind readSnapshot
  wal := f.walLog.map readWal

/-- The constructor on a directory with these files. -/
def Files.loadFromDisk (f : Files) : PersistentLog := .load f.directory

/-! ## Reading back what was written -/

theorem readHardState_hardStateBytes {term : Nat} {votedFor : NodeId} (hterm : term < 2 ^ 64)
    (hvoted : votedFor < 2 ^ 32) :
    readHardState (hardStateBytes term votedFor) = some (term, votedFor) := by
  have hdecodes : Decodes getHardState (hardStateBytes term votedFor) (term, votedFor) :=
    (Decodes.u64 hterm).bind ((Decodes.u32 hvoted).map (Prod.mk term))
  have hlength : (hardStateBytes term votedFor).length = 12 := by
    simp [hardStateBytes, putU64, putU32, length_putLE]
  rw [readHardState, if_pos (by omega), hdecodes.run'_self]

theorem readSnapshot_encode {s : SnapshotFile} (hindex : s.index < 2 ^ 64)
    (hterm : s.term < 2 ^ 64) : readSnapshot s.encode = some s := by
  have hdecodes : Decodes getSnapshotHeader (putU64 s.index ++ putU64 s.term) (s.index, s.term) :=
    (Decodes.u64 hindex).bind ((Decodes.u64 hterm).map (Prod.mk s.index))
  have hlength : (putU64 s.index ++ putU64 s.term).length = 16 := by
    simp [putU64, length_putLE]
  rw [readSnapshot, if_pos (by rw [SnapshotFile.encode, List.length_append]; omega),
    SnapshotFile.encode, hdecodes.run', List.drop_append_of_le_length (by omega),
    List.drop_of_length_le (by omega)]
  rfl

theorem readEntries_walBytes {es : List LogEntry} (hfits : ∀ e ∈ es, e.Fits) {turns : Nat}
    (hturns : (walBytes es).length ≤ turns) : readEntries turns (walBytes es) = es := by
  induction es generalizing turns with
  | nil => cases turns <;> rfl
  | cons e es ih =>
      have hwal : walBytes (e :: es) = e.encode ++ walBytes es := List.flatMap_cons
      have hpos := List.length_pos_of_ne_nil e.encode_ne_nil
      rw [hwal, List.length_append] at hturns
      obtain ⟨turns, rfl⟩ : ∃ k, turns = k + 1 := ⟨turns - 1, by omega⟩
      rw [hwal, readEntries, if_neg (by simp [e.encode_ne_nil]),
        LogEntry.decodes (hfits e List.mem_cons_self) (walBytes es)]
      simp only
      rw [ih (fun x hx => hfits x (List.mem_cons_of_mem e hx)) (by omega)]

/-- The records fit the widths of the files. -/
structure Directory.Fits (d : Directory) : Prop where
  hardstate : ∀ h ∈ d.hardstate, h.1 < 2 ^ 64 ∧ h.2 < 2 ^ 32
  snapshot : ∀ s ∈ d.snapshot, s.index < 2 ^ 64 ∧ s.term < 2 ^ 64
  wal : ∀ es ∈ d.wal, ∀ e ∈ es, e.Fits

theorem directory_files {d : Directory} (h : d.Fits) : d.files.directory = d := by
  obtain ⟨hardstate, snapshot, wal⟩ := d
  have hhard : (hardstate.map fun h => hardStateBytes h.1 h.2).bind readHardState = hardstate := by
    cases hardstate with
    | none => rfl
    | some hs =>
        have hfits := h.hardstate hs rfl
        exact readHardState_hardStateBytes hfits.1 hfits.2
  have hsnap : (snapshot.map SnapshotFile.encode).bind readSnapshot = snapshot := by
    cases snapshot with
    | none => rfl
    | some s =>
        have hfits := h.snapshot s rfl
        exact readSnapshot_encode hfits.1 hfits.2
  have hwal : (wal.map walBytes).map readWal = wal := by
    cases wal with
    | none => rfl
    | some es => exact congrArg some (readEntries_walBytes (h.wal es rfl) (Nat.le_refl _))
  simp only [Directory.files, Files.directory, hhard, hsnap, hwal]

end KvRaft
