import KvRaft.PersistentLog
import KvRaft.Run

/-!
# KvRaft.PlainLog

The log that `PersistentLog` stands for: a list of all entries since index 1,
where an append cuts off everything from its first index on and a compaction
does nothing.

`PlainLog.step` runs the two side by side; `represents_run` is the simulation,
and `log_refines_plain` says that every query answers as on the plain list, from
the snapshot boundary on.
-/

namespace KvRaft

namespace PlainLog

/-! ## The plain list -/

def append (full newEntries : List LogEntry) : List LogEntry :=
  match newEntries with
  | [] => full
  | e :: _ => full.take (e.index - 1) ++ newEntries

/-- `at(idx)`. -/
def entryAt (full : List LogEntry) (idx : Nat) : Option LogEntry :=
  if idx = 0 then none else full[idx - 1]?

/-- Entries strictly after `afterIdx`, up to `maxCount` (`0` for all). -/
def entriesAfter (full : List LogEntry) (afterIdx maxCount : Nat) : List LogEntry :=
  if maxCount = 0 then full.drop afterIdx else (full.drop afterIdx).take maxCount

/-! ## Both logs side by side -/

inductive Action
  | appendAndSync (newEntries : List LogEntry)
  /-- `compactUpTo(index, termAt(index), snapshotBytes)` -/
  | compactUpTo (index : Nat) (snapshotBytes : Bytes)

def step : PersistentLog × List LogEntry → Action → Option (PersistentLog × List LogEntry)
  | (L, full), .appendAndSync newEntries =>
      some (L.appendAndSync newEntries, append full newEntries)
  | (L, full), .compactUpTo index snapshotBytes =>
      some (L.compactUpTo index (L.termAt index) snapshotBytes, full)

/-- A batch is contiguous and starts where the log still has entries or ends;
a compaction goes no further than the log. -/
def Valid : PersistentLog × List LogEntry → Action → Prop
  | (L, _), .appendAndSync newEntries =>
      ∃ e ∈ newEntries.head?, L.snapshotIndex + 1 ≤ e.index ∧ e.index ≤ L.lastIndex + 1 ∧
        PersistentLog.IndexedFrom (e.index - 1) newEntries
  | (L, _), .compactUpTo index _ => index ≤ L.lastIndex

instance : (s : PersistentLog × List LogEntry) → (a : Action) → Decidable (Valid s a)
  | (_, _), .appendAndSync newEntries =>
      match newEntries with
      | [] => isFalse nofun
      | e :: _ => decidable_of_iff (_ ∧ _ ∧ _)
          ⟨fun h => ⟨e, rfl, h⟩, fun ⟨_, he, h⟩ => by cases he; exact h⟩
  | (_, _), .compactUpTo .. => inferInstanceAs (Decidable (_ ≤ _))

/-- A step of both logs keeps the one standing for the other. -/
theorem represents_step {L L' : PersistentLog} {full full' : List LogEntry} {a : Action}
    (h : L.Represents full) (hvalid : Valid (L, full) a)
    (hstep : step (L, full) a = some (L', full')) : L'.Represents full' := by
  cases a with
  | appendAndSync newEntries =>
      cases hstep
      obtain ⟨e, he, hlow, hhigh, hindexed⟩ := hvalid
      cases newEntries with
      | nil => cases he
      | cons x rest =>
          cases he
          rw [h.lastIndex] at hhigh
          exact h.appendAndSync (by omega) (by omega) (by simp) hindexed
  | compactUpTo index snapshotBytes =>
      cases hstep
      change index ≤ L.lastIndex at hvalid
      rw [h.lastIndex] at hvalid
      by_cases hle : index ≤ L.snapshotIndex
      · rw [PersistentLog.compactUpTo, if_pos hle]
        exact h
      · -- the snapshot is one of the front of the same list
        have hlen : (full.take index).length = index := List.length_take_of_le hvalid
        have hterm : Replica.lastTerm (full.take index) = L.termAt index := by
          rw [Replica.lastTerm, hlen, Replica.termAt_take (Nat.le_refl _) hvalid,
            h.termAt (by omega)]
        have hcompacted := h.compactUpTo (p := full.take index) (by omega)
          (h.indexed.take index) snapshotBytes
        rwa [hlen, hterm, List.take_append_drop] at hcompacted

theorem represents_run {L : PersistentLog} {full : List LogEntry}
    (hrun : Run step Valid (.load .empty, []) (L, full)) : L.Represents full :=
  hrun.invariant (P := fun s => s.1.Represents s.2)
    ⟨Nat.le_refl 0, rfl, rfl, .nil 0⟩ fun _ _ _ h hvalid hstep => represents_step h hvalid hstep

end PlainLog

/-- **The log refines the plain list**: after any appends and compactions the
queries answer as on the list of all entries, from the snapshot boundary on. -/
theorem log_refines_plain {L : PersistentLog} {full : List LogEntry}
    (hrun : Run PlainLog.step PlainLog.Valid (.load .empty, []) (L, full)) :
    L.lastIndex = full.length ∧ L.lastTerm = Replica.lastTerm full ∧
      (∀ k ≥ L.snapshotIndex, L.termAt k = Replica.termAt full k) ∧
      (∀ k > L.snapshotIndex, L.entryAt k = PlainLog.entryAt full k) ∧
      ∀ a ≥ L.snapshotIndex, ∀ max, L.entriesAfter a max = PlainLog.entriesAfter full a max := by
  have h := PlainLog.represents_run hrun
  refine ⟨h.lastIndex, h.lastTerm, fun k hk => h.termAt hk, fun k hk => ?_, fun a ha max => ?_⟩
  · rw [h.entryAt hk, PlainLog.entryAt, if_neg (by omega)]
  · rw [h.entriesAfter ha, PlainLog.entriesAfter]

/-- Two entries, a snapshot of the first, and a third entry over the second. -/
theorem log_refines_plain_of_overwritten :
    let s := replay PlainLog.step (.load .empty, [])
      [.appendAndSync [⟨1, 1, .command, [7]⟩, ⟨1, 2, .command, [8]⟩], .compactUpTo 1 [9],
        .appendAndSync [⟨2, 2, .command, [5]⟩]]
    s.1.snapshotIndex = 1 ∧ s.1.entries = [⟨2, 2, .command, [5]⟩] ∧
      s.1.lastIndex = s.2.length ∧ s.1.termAt 1 = Replica.termAt s.2 1 := by
  have hrun := log_refines_plain (run_replay (by decide +kernel) : Run PlainLog.step PlainLog.Valid
    (.load .empty, []) (replay PlainLog.step (.load .empty, [])
      [.appendAndSync [⟨1, 1, .command, [7]⟩, ⟨1, 2, .command, [8]⟩], .compactUpTo 1 [9],
        .appendAndSync [⟨2, 2, .command, [5]⟩]]))
  exact ⟨by decide +kernel, by decide +kernel, hrun.1, hrun.2.2.1 1 (by decide +kernel)⟩

end KvRaft
