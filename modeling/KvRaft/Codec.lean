import KvRaft.KvSnapshot
import KvRaft.Rpc

/-!
# KvRaft.Codec

The binary form of everything that is stored or sent: log entries, cluster
configurations, commands and the six messages.  The encoders and decoders stand
beside their types (`KvRaft.Types`, `KvRaft.Rpc`); here they are put together.
-/

namespace KvRaft

/-- **The codec round-trips**: a value whose fields fit their widths is read
back from its bytes, whatever follows them, and what follows is left unread.
Conversely the bytes that are read as a log entry are those of that entry. -/
theorem codec_round_trips :
    RoundTrips LogEntry.Fits LogEntry.encode LogEntry.decode ∧
      RoundTrips ClusterConfig.Fits ClusterConfig.encode ClusterConfig.decode ∧
      RoundTrips KvCommand.InRange KvCommand.encode KvCommand.reader ∧
      RoundTrips RequestVoteReq.Fits RequestVoteReq.encode RequestVoteReq.decode ∧
      RoundTrips RequestVoteResp.Fits RequestVoteResp.encode RequestVoteResp.decode ∧
      RoundTrips AppendEntriesReq.Fits AppendEntriesReq.encode AppendEntriesReq.decode ∧
      RoundTrips AppendEntriesResp.Fits AppendEntriesResp.encode AppendEntriesResp.decode ∧
      RoundTrips InstallSnapshotReq.Fits InstallSnapshotReq.encode InstallSnapshotReq.decode ∧
      RoundTrips InstallSnapshotResp.Fits InstallSnapshotResp.encode InstallSnapshotResp.decode ∧
      (∀ c : KvCommand, c.InRange → ∀ rest, KvCommand.decode (c.encode ++ rest) = .ok c) ∧
      Consumes LogEntry.decode LogEntry.encode :=
  ⟨fun _ => LogEntry.decodes, fun _ => ClusterConfig.decodes, KvCommand.decodes,
    RequestVoteReq.decodes, RequestVoteResp.decodes, AppendEntriesReq.decodes,
    AppendEntriesResp.decodes, InstallSnapshotReq.decodes, InstallSnapshotResp.decodes,
    fun _ => KvCommand.decode_append, LogEntry.consumes⟩

/-- A heartbeat with one entry, and a byte after it. -/
theorem codec_round_trips_of_heartbeat :
    AppendEntriesReq.decode (AppendEntriesReq.encode ⟨1, 2, 0, 0, [⟨1, 1, .noOp, [7]⟩], 0⟩ ++ [9]) =
      .ok (⟨1, 2, 0, 0, [⟨1, 1, .noOp, [7]⟩], 0⟩, [9]) := by
  refine codec_round_trips.2.2.2.2.2.1 _ ⟨by decide, by decide, by decide, by decide, ?_, by decide,
    by decide⟩ [9]
  intro e he
  rw [List.mem_singleton.mp he]
  exact ⟨by decide, by decide, by decide⟩

end KvRaft
