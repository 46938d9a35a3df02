import KvRaft.TcpTransport

/-!
# KvRaft.PeerConnection

A request of `TcpTransport::roundTrip` on its way to `PeerServer::connLoop`: a
big-endian length around a little-endian shard id and the encoded message, moved
in pieces of any size.

* `connLoop_frame` — the peer finds the shard and the request in the frame;
* `peer_framing` — the frames arrive as they were written, and each is served as
  the request it was made from.
-/

namespace KvRaft

namespace Rpc

/-- The fields of the request fit their widths. -/
def Fits : Rpc → Prop
  | requestVote req _ => req.Fits
  | appendEntries req => req.Fits
  | installSnapshot req => req.Fits

end Rpc

/-- The response as it is sent back. -/
def Answer.encodeResp : Answer → Bytes
  | requestVote _ _ resp => resp.encode
  | appendEntries _ resp => resp.encode
  | installSnapshot _ resp => resp.encode

variable {σ : Type}

/-- The shard id is the first four bytes of the payload, the message the rest. -/
theorem TcpTransport.frame_payload (t : TcpTransport σ) (rpc : Rpc) :
    (t.frame rpc).payload.take 4 = putU32 t.shardId ∧
      (t.frame rpc).payload.drop 4 = rpc.encode := by
  have hlength : (putU32 t.shardId).length = 4 := length_putLE 4 t.shardId
  exact ⟨List.take_left' hlength, List.drop_left' hlength⟩

variable [StateMachine σ]

/-- **The peer gets the request that was sent**: whatever shards it serves, it passes
the request to the shard of the transport, and closes the connection if it has none. -/
theorem PeerServer.connLoop_frame (p : PeerServer σ) (t : TcpTransport σ) {rpc : Rpc}
    (hid : t.shardId < 2 ^ 32) (hfits : rpc.Fits) :
    p.connLoop (t.frame rpc) = (p.shards.lookup t.shardId).map fun node =>
      (⟨p.shards.insert t.shardId (node.handle rpc).1⟩,
        ⟨rpc.respType, (node.handle rpc).2.encodeResp⟩) := by
  obtain ⟨htake, hdrop⟩ := t.frame_payload rpc
  -- the frame starts with the shard, which selects the node
  have hlength : 4 ≤ (t.frame rpc).payload.length := by
    simp [TcpTransport.frame, putU32, length_putLE]
  have hshard : (getU32.run' (putU32 t.shardId)).toOption = some t.shardId :=
    (Decodes.u32 hid).run'_self
  simp only [connLoop, htake, hdrop, hshard, hlength, guard, if_true, Option.bind_eq_bind,
    Option.pure_def, Option.bind_some]
  cases p.shards.lookup t.shardId with
  | none => rfl
  | some node =>
      -- each type of request reads back as what was encoded
      cases rpc with
      | requestVote req majority =>
          simp only [TcpTransport.frame, Rpc.reqType, Rpc.encode, Option.bind_some,
            (RequestVoteReq.decodes req hfits).run'_self]
          rfl
      | appendEntries req =>
          simp only [TcpTransport.frame, Rpc.reqType, Rpc.encode, Option.bind_some,
            (AppendEntriesReq.decodes req hfits).run'_self]
          rfl
      | installSnapshot req =>
          simp only [TcpTransport.frame, Rpc.reqType, Rpc.encode, Option.bind_some,
            (InstallSnapshotReq.decodes req hfits).run'_self]
          rfl

/-- **Frames between peers round-trip**: frames that are written on a blocking
socket are read at the other end, all of them, in order and with nothing left over,
however many bytes each `send` and each `recv` moves; frames that differ are read
differently; and the frame that `roundTrip` makes from a shard id and a request is
served as that request, by that shard. -/
theorem peer_framing (send recv : Nat → Nat) {frames : List Frame}
    (hframes : ∀ f ∈ frames, f.payload.length < 2 ^ 32) :
    (∃ s, Drains (Wire.readFrame recv)
        ⟨(Wire.writeFrames (fun i => some (send i)) 0 frames).put, 0⟩ (frames.map Frame.raw) s ∧
        s.bytes = []) ∧
      Function.Injective Frame.raw ∧
      ∀ (p : PeerServer σ) (t : TcpTransport σ) (rpc : Rpc), t.shardId < 2 ^ 32 → rpc.Fits →
        p.connLoop (t.frame rpc) = (p.shards.lookup t.shardId).map fun node =>
          (⟨p.shards.insert t.shardId (node.handle rpc).1⟩,
            ⟨rpc.respType, (node.handle rpc).2.encodeResp⟩) :=
  ⟨Wire.drains_writeFrames (fun _ h => by cases h) recv hframes, Frame.raw_injective,
    fun p t _ hid hfits => p.connLoop_frame t hid hfits⟩

/-- A request for a vote and a heartbeat of shard 3, written one byte at a time and read
in pieces of twenty.  They are not mistaken for each other, and node 2, which has just
started in that shard, serves the first as the request it is. -/
theorem peer_framing_of_vote :
    let t : TcpTransport KvStore := .new 3 [2] 1 fun _ => ⟨∅⟩
    let node : RaftNode KvStore := .new 2 1000 ⟨[1, 2, 3], []⟩ .empty 0 []
    let p : PeerServer KvStore := ⟨(∅ : AList fun _ : Nat => RaftNode KvStore).insert 3 node⟩
    let vote : Rpc := .requestVote ⟨5, 1, 0, 0⟩ 2
    let heartbeat : Rpc := .appendEntries ⟨5, 1, 0, 0, [], 0⟩
    (∃ s, Drains (Wire.readFrame fun _ => 20)
      ⟨(Wire.writeFrames (fun _ => some 1) 0 [t.frame vote, t.frame heartbeat]).put, 0⟩
      [(t.frame vote).raw, (t.frame heartbeat).raw] s ∧ s.bytes = []) ∧
    (t.frame vote).raw ≠ (t.frame heartbeat).raw ∧
    p.connLoop (t.frame vote) = some (⟨p.shards.insert 3 (node.handle vote).1⟩,
      ⟨.requestVoteResp, (node.handle vote).2.encodeResp⟩) := by
  intro t node p vote heartbeat
  have hframes : ∀ f ∈ [t.frame vote, t.frame heartbeat], f.payload.length < 2 ^ 32 := by
    decide +kernel
  obtain ⟨hread, hraw, hserved⟩ := @peer_framing KvStore _ (fun _ => 1) (fun _ => 20) _ hframes
  refine ⟨hread, fun heq => ?_, ?_⟩
  · exact absurd (hraw heq) (by decide +kernel)
  · rw [hserved p t vote (by decide) ⟨by decide, by decide, by decide, by decide⟩]
    rfl

end KvRaft
