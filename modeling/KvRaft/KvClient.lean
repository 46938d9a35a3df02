import KvRaft.KvServer
import KvRaft.KvSnapshot

/-!
# KvRaft.KvClient

`KvClient::request`: up to five attempts to get one request answered, each
against the first server of the key's shard, another one of its servers or the
leader the last response named.

What an attempt meets (`Exchange`) is up to the network and the servers.  The
model keeps the frames a call hands to its connections; `command?` is the
command a leader proposes for such a frame (`dispatch_of_command?`), and
`created_eq` says which commands a call of `put`, `del` or `cas` may leave in
the log.
-/

namespace KvRaft

/-- How an attempt ends. -/
inductive Exchange
  /-- `pooledConn` throws: there is no port number in the address -/
  | noPort (what : String)
  /-- `pooledConn` finds no connection -/
  | unreachable
  /-- `writeFrame` fails; the server may have got the frame all the same -/
  | unsent
  /-- `readFrame` fails: the response is lost, or there never was one -/
  | unanswered
  | answered (response : Bytes)

structure KvClient where
  clientId : Nat
  /-- the next sequence number -/
  seq : Nat

namespace KvClient

/-- The parameters of `request`. -/
structure Request where
  op : UInt8
  key : Bytes
  value : Bytes
  expect : Bytes

def get (key : Bytes) : Request := ⟨0, key, [], []⟩

def put (key value : Bytes) : Request := ⟨1, key, value, []⟩

def del (key : Bytes) : Request := ⟨2, key, [], []⟩

def cas (key expect value : Bytes) : Request := ⟨3, key, value, expect⟩

/-- What an attempt writes. -/
def frame (c : KvClient) (r : Request) : Bytes :=
  putU8 r.op ++ (putBytes r.key ++
    if r.op ≠ 0 then
      putBytes r.value ++ (putBytes r.expect ++ (putU64 c.clientId ++ putU64 c.seq))
    else [])

/-- `seq_.fetch_add(1)`, which only writes do. -/
def draw (c : KvClient) (r : Request) : KvClient :=
  if r.op ≠ 0 then { c with seq := (c.seq + 1) % 2 ^ 64 } else c

/-- Status, leader hint and value of a response. -/
def getResponse : Get (UInt8 × Bytes × Bytes) := do
  let status ← getU8
  let leaderHint ← getBytes
  let val ← getBytes
  return (status, leaderHint, val)

/-- What a call leaves behind. -/
structure Requested where
  client : KvClient
  /-- the frames handed to a connection, with the address it goes to -/
  sent : List (Bytes × Bytes)
  /-- the return value, and what `outValue` is set to -/
  result : Except String (Bool × Option Bytes)

/-- A frame goes out before the rest of the call. -/
def Requested.after (addr frame : Bytes) (q : Requested) : Requested :=
  { q with sent := (addr, frame) :: q.sent }

/-- The loop of `request`, with `turns` of its five attempts left. -/
def attempts (servers : List Bytes) (r : Request) (world : Nat → Exchange) :
    (turns : Nat) → (c : KvClient) → (addr : Bytes) → Requested
  | 0, c, _ => ⟨c, [], .ok (false, none)⟩
  | turns + 1, c, addr =>
      let attempt := 5 - (turns + 1)
      match world attempt with
      | .noPort what => ⟨c, [], .error what⟩
      | .unreachable =>
          attempts servers r world turns c (servers.getD (attempt % servers.length) [])
      | .unsent => (attempts servers r world turns (c.draw r) addr).after addr (c.frame r)
      | .unanswered => (attempts servers r world turns (c.draw r) addr).after addr (c.frame r)
      | .answered response =>
          match getResponse.run' response with
          | .error what => ⟨c.draw r, [(addr, c.frame r)], .error what⟩
          | .ok (status, leaderHint, val) =>
              if status = 0 then ⟨c.draw r, [(addr, c.frame r)], .ok (true, some val)⟩
              else if status = 2 ∧ leaderHint ≠ [] then
                (attempts servers r world turns (c.draw r) leaderHint).after addr (c.frame r)
              -- not found, CAS mismatch, timeout, or no leader known
              else ⟨c.draw r, [(addr, c.frame r)], .ok (false, none)⟩

/-- `servers` are those of the key's shard, as far as the client has any. -/
def request (c : KvClient) (servers : Option (List Bytes)) (r : Request)
    (world : Nat → Exchange) : Requested :=
  match servers with
  | none | some [] => ⟨c, [], .ok (false, none)⟩
  | some (addr :: rest) => attempts (addr :: rest) r world 5 c addr

/-! ## The commands of a call -/

/-- The part of a request that `dispatch` proposes. -/
def command? (frame : Bytes) : Option KvCommand :=
  match (do
    let op ← getU8
    let key ← getBytes
    if op = 0 then return none
    else return some (← KvServer.getCommand op key) : Get (Option KvCommand)).run' frame with
  | .ok cmd => cmd
  | .error _ => none

/-- A leader that gets the frame of a write proposes its command. -/
theorem dispatch_of_command? {frame : Bytes} {cmd : KvCommand} (h : command? frame = some cmd)
    {n : RaftNode KvStore} (hn : n.role = .leader) :
    KvServer.dispatch (fun _ => some n) frame =
      .ok (some (n.propose cmd.encode .command).1,
        .writing cmd.encode (n.propose cmd.encode .command).2) := by
  unfold command? at h
  split at h
  case h_2 => cases h
  case h_1 _ hrun =>
    subst h
    obtain ⟨rest, hrun⟩ := get_run'_eq_ok.mp hrun
    obtain ⟨op, r₁, hop, hrun⟩ := get_bind_eq_ok.mp hrun
    obtain ⟨key, r₂, hkey, hrun⟩ := get_bind_eq_ok.mp hrun
    split at hrun
    · cases hrun
    · next hwrite =>
      obtain ⟨cmd', r₃, hcmd, hrun⟩ := get_bind_eq_ok.mp hrun
      cases hrun
      -- the server reads the same fields in the same order
      refine get_run'_eq_ok.mpr ⟨rest, get_bind_eq_ok.mpr ⟨op, r₁, hop, ?_⟩⟩
      refine get_bind_eq_ok.mpr ⟨key, r₂, hkey, ?_⟩
      simp only [if_neg hwrite]
      refine get_bind_eq_ok.mpr ⟨cmd, rest, hcmd, ?_⟩
      have hleader : (n.propose cmd.encode .command).2.isLeader = true := by
        simp [RaftNode.propose, hn]
      simp only [if_pos hleader]
      rfl

/-- The command of a write, sent with sequence number `seq`. -/
def Request.command (r : Request) (clientId seq : Nat) : KvCommand :=
  ⟨if r.op = 1 then .put else if r.op = 2 then .del else .cas, r.key, r.value, r.expect,
    clientId, seq⟩

/-- The commands the frames of a call stand for. -/
def Requested.created (q : Requested) : List KvCommand := q.sent.filterMap fun p => command? p.2

/-- A write whose fields have a place in a frame, as have the sequence numbers
of `turns` attempts. -/
structure Fits (c : KvClient) (r : Request) (turns : Nat) : Prop where
  write : r.op ≠ 0
  key : r.key.length < 2 ^ 32
  value : r.value.length < 2 ^ 32
  expect : r.expect.length < 2 ^ 32
  clientId : c.clientId < 2 ^ 64
  seq : c.seq + turns < 2 ^ 64

theorem command?_frame {c : KvClient} {r : Request} {turns : Nat} (h : Fits c r turns) :
    command? (c.frame r) = some (r.command c.clientId c.seq) := by
  have hcommand : Decodes (KvServer.getCommand r.op r.key)
      (putBytes r.value ++ (putBytes r.expect ++ (putU64 c.clientId ++ putU64 c.seq)))
      (r.command c.clientId c.seq) :=
    (Decodes.bytes h.value).bind <| (Decodes.bytes h.expect).bind <|
      (Decodes.u64 h.clientId).bind <| (Decodes.u64 (by have := h.seq; omega)).map _
  have hframe : Decodes (do
      let op ← getU8
      let key ← getBytes
      if op = 0 then return none
      else return some (← KvServer.getCommand op key) : Get (Option KvCommand))
      (c.frame r) (some (r.command c.clientId c.seq)) := by
    refine (Decodes.u8 r.op).bind ((Decodes.bytes h.key).bind ?_)
    rw [if_pos h.write, if_neg h.write]
    exact hcommand.map some
  rw [command?, get_run'_eq_ok.mpr ⟨[], by simpa using hframe []⟩]

/-! ## The sequence numbers of a call -/

/-- The call has drawn the next `m` sequence numbers, one for each command. -/
def Requested.Drew (q : Requested) (c : KvClient) (r : Request) (m : Nat) : Prop :=
  q.client = { c with seq := c.seq + m } ∧
    q.created = (List.range' c.seq m).map (r.command c.clientId)

section

variable {c : KvClient} {r : Request} {turns : Nat}

theorem Fits.draw_eq (h : Fits c r (turns + 1)) : c.draw r = { c with seq := c.seq + 1 } := by
  have hseq := h.seq
  rw [draw, if_pos h.write, Nat.mod_eq_of_lt (by omega)]

theorem Fits.draw (h : Fits c r (turns + 1)) : Fits (c.draw r) r turns := by
  rw [h.draw_eq]
  exact { h with clientId := h.clientId, seq := by have := h.seq; simp only; omega }

theorem Requested.Drew.after {q : Requested} {m : Nat} (h : Fits c r (turns + 1))
    (hq : q.Drew (c.draw r) r m) (addr : Bytes) : (q.after addr (c.frame r)).Drew c r (m + 1) := by
  rw [h.draw_eq] at hq
  refine ⟨hq.1.trans ?_, ?_⟩
  · rw [Nat.add_right_comm, Nat.add_assoc]
  · rw [List.range'_succ, List.map_cons]
    refine (List.filterMap_cons_some (f := fun p : Bytes × Bytes => command? p.2) (a := (addr, _))
      (command?_frame h)).trans ?_
    exact congrArg _ hq.2

/-- Every attempt of a write that gets a connection draws a sequence number of
its own. -/
theorem attempts_drew (servers : List Bytes) (world : Nat → Exchange) (h : Fits c r turns)
    (addr : Bytes) : ∃ m ≤ turns, (attempts servers r world turns c addr).Drew c r m := by
  have hnone : ∀ (c : KvClient) result, (⟨c, [], result⟩ : Requested).Drew c r 0 :=
    fun c result => ⟨rfl, rfl⟩
  induction turns generalizing c addr with
  | zero => exact ⟨0, le_rfl, hnone c _⟩
  | succ turns ih =>
      -- an attempt either ends the call, with the draw or without, or leaves the rest to others
      have hrest : ∀ addr addr', ∃ m ≤ turns + 1,
          ((attempts servers r world turns (c.draw r) addr').after addr (c.frame r)).Drew
            c r m := by
        intro addr addr'
        obtain ⟨m, hm, hdrew⟩ := ih h.draw addr'
        exact ⟨m + 1, Nat.succ_le_succ hm, hdrew.after h addr⟩
      have hlast : ∀ result, ∃ m ≤ turns + 1,
          (⟨c.draw r, [(addr, c.frame r)], result⟩ : Requested).Drew c r m := fun result =>
        ⟨1, Nat.succ_le_succ (Nat.zero_le turns), (hnone (c.draw r) result).after h addr⟩
      rw [attempts]
      cases world (5 - (turns + 1)) with
      | noPort what => exact ⟨0, Nat.zero_le _, hnone c _⟩
      | unreachable =>
          obtain ⟨m, hm, hdrew⟩ := ih { h with seq := by have := h.seq; omega } _
          exact ⟨m, Nat.le_succ_of_le hm, hdrew⟩
      | unsent => exact hrest addr addr
      | unanswered => exact hrest addr addr
      | answered response =>
          simp only
          split
          · exact hlast _
          · split_ifs
            · exact hlast _
            · exact hrest addr _
            · exact hlast _

theorem request_drew (h : Fits c r 5) (servers : Option (List Bytes)) (world : Nat → Exchange) :
    ∃ m ≤ 5, (c.request servers r world).Drew c r m := by
  match servers with
  | none | some [] => exact ⟨0, Nat.zero_le 5, rfl, rfl⟩
  | some (addr :: rest) => exact attempts_drew (addr :: rest) world h addr

end

end KvClient

end KvRaft
