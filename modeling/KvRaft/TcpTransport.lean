import KvRaft.RaftNode
import KvRaft.Run
import KvRaft.Wire

/-!
# KvRaft.TcpTransport

`TcpTransport` of `net/tcp_transport.h` with the peers' `PeerServer::connLoop` of
`server/peer_server.h`.  The workers of a transport share one pooled connection
per peer; a frame carries its type and its payload and nothing that names the
request, so a worker takes the next frame of the connection for its answer.

Frames are written and read whole, a peer answers the requests of a connection
in order, and a connection may break at any time.  All workers share the file
descriptors of the process: a closed one may come back as a new connection.

* `Orderly` — on every connection at most one round trip is going on, and what is
  in flight belongs to it;
* `own_response` — every callback gets the answer to its own request, if a worker
  writes only where no round trip is going on (`TcpTransport.Exclusive`);
* `responses_swapped` — two workers that write one after the other get each
  other's answers.
-/

namespace KvRaft

/-! ## Requests on the wire -/

namespace Rpc

/-- The type a request is sent under. -/
def reqType : Rpc → WireType
  | requestVote .. => .requestVoteReq
  | appendEntries _ => .appendEntriesReq
  | installSnapshot _ => .installSnapshotReq

/-- The type of the response the callback decodes. -/
def respType : Rpc → WireType
  | requestVote .. => .requestVoteResp
  | appendEntries _ => .appendEntriesResp
  | installSnapshot _ => .installSnapshotResp

def encode : Rpc → Bytes
  | requestVote req _ => req.encode
  | appendEntries req => req.encode
  | installSnapshot req => req.encode

/-- What is passed to the callback. -/
def decodeResp (rpc : Rpc) (resp : Bytes) : Except String Answer :=
  match rpc with
  | requestVote req majority => (RequestVoteResp.decode.run' resp).map (.requestVote req majority)
  | appendEntries req => (AppendEntriesResp.decode.run' resp).map (.appendEntries req)
  | installSnapshot req => (InstallSnapshotResp.decode.run' resp).map (.installSnapshot req)

end Rpc

/-! ## The peers -/

structure PeerServer (σ : Type) where
  shards : AList fun _ : Nat => RaftNode σ

/-- One turn of the loop of a connection: the answer to a frame, or the end of
the connection. -/
def PeerServer.connLoop {σ : Type} [StateMachine σ] (p : PeerServer σ) (frame : Frame) :
    Option (PeerServer σ × Frame) := do
  guard (4 ≤ frame.payload.length)
  let shardId ← (getU32.run' (frame.payload.take 4)).toOption
  let body := frame.payload.drop 4
  let node ← p.shards.lookup shardId
  match frame.type with
  | .requestVoteReq =>
      let req ← (RequestVoteReq.decode.run' body).toOption
      let (node, resp) := node.handleRequestVote req
      return (⟨p.shards.insert shardId node⟩, ⟨.requestVoteResp, resp.encode⟩)
  | .appendEntriesReq =>
      let req ← (AppendEntriesReq.decode.run' body).toOption
      let (node, resp) := node.handleAppendEntries req
      return (⟨p.shards.insert shardId node⟩, ⟨.appendEntriesResp, resp.encode⟩)
  | .installSnapshotReq =>
      let req ← (InstallSnapshotReq.decode.run' body).toOption
      let (node, resp) := node.handleInstallSnapshot req
      return (⟨p.shards.insert shardId node⟩, ⟨.installSnapshotResp, resp.encode⟩)
  | _ => none

theorem PeerServer.connLoop_type {σ : Type} [StateMachine σ] {p p' : PeerServer σ} {rpc : Rpc}
    {payload : Bytes} {resp : Frame} (h : p.connLoop ⟨rpc.reqType, payload⟩ = some (p', resp)) :
    resp.type = rpc.respType := by
  simp only [connLoop, Option.bind_eq_bind, Option.bind_eq_some_iff] at h
  obtain ⟨_, -, shardId, -, node, -, h⟩ := h
  cases rpc <;>
  · obtain ⟨req, -, h⟩ := Option.bind_eq_some_iff.mp h
    cases h
    rfl

/-! ## The transport -/

/-- A request in the queue or with a worker. -/
structure Job where
  /-- the number of the call -/
  call : Nat
  target : NodeId
  rpc : Rpc
  deriving DecidableEq

/-- Where a worker stands in its job. -/
inductive Stage
  | idle
  | started (job : Job)
  /-- `getConn` has returned -/
  | connected (job : Job) (fd : Nat)
  /-- `writeFrame` has succeeded -/
  | written (job : Job) (fd : Nat)
  /-- `writeFrame` has failed -/
  | unsent (job : Job)
  /-- `readFrame` has failed -/
  | unread (job : Job) (fd : Nat)
  deriving DecidableEq

/-- The round trip that is going on. -/
def Stage.pending : Stage → Option (Job × Nat)
  | written job fd | unread job fd => some (job, fd)
  | _ => none

/-- The request that is to be written, and where. -/
def Stage.writing : Stage → Option (Job × Nat)
  | connected job fd => some (job, fd)
  | _ => none

/-- A connection, with the frames in flight and the calls they belong to. -/
structure Socket where
  peer : NodeId
  requests : List (Nat × Frame)
  responses : List (Nat × Frame)
  /-- the peer gets and sends nothing any more -/
  broken : Bool

/-- An answer a peer gave. -/
structure Served (σ : Type) where
  call : Nat
  peer : NodeId
  /-- the peer when it answered -/
  server : PeerServer σ
  response : Frame

structure TcpTransport (σ : Type) where
  shardId : Nat
  /-- the peers whose address is known -/
  peerAddrs : List NodeId
  /-- the pooled connections; without an entry the source has `-1` or none -/
  conns : AList fun _ : NodeId => Nat
  queue : List Job
  stopping : Bool
  workers : List Stage
  /-- the open file descriptors -/
  sockets : Nat → Option Socket
  peers : NodeId → PeerServer σ
  /-- the number of calls so far -/
  calls : Nat
  served : List (Served σ)
  /-- the callbacks so far, with the response if there is one -/
  callbacks : List (Job × Option Frame)

namespace TcpTransport

variable {σ : Type} [StateMachine σ]

def new (shardId : Nat) (peerAddrs : List NodeId) (workers : Nat)
    (peers : NodeId → PeerServer σ) : TcpTransport σ where
  shardId := shardId
  peerAddrs := peerAddrs
  conns := ∅
  queue := []
  stopping := false
  workers := List.replicate workers .idle
  sockets := fun _ => none
  peers := peers
  calls := 0
  served := []
  callbacks := []

inductive Action (σ : Type)
  | send (target : NodeId) (rpc : Rpc)
  | stop
  /-- worker `w` takes the first job -/
  | take (w : Nat)
  /-- with the result of `connectTo`, should it be called -/
  | getConn (w : Nat) (connected : Option Nat)
  | writeFrame (w : Nat) (ok : Bool)
  | readFrame (w : Nat) (ok : Bool)
  | dropConn (w : Nat)
  /-- the peer at the other end answers a frame or closes -/
  | connLoop (fd : Nat)
  /-- a connection breaks, and only the first `kept` responses still arrive -/
  | breaks (fd kept : Nat)
  /-- the other threads of a peer -/
  | peer (id : NodeId) (p : PeerServer σ)

/-- The frame `roundTrip` writes. -/
def frame (s : TcpTransport σ) (rpc : Rpc) : Frame :=
  ⟨rpc.reqType, putU32 s.shardId ++ rpc.encode⟩

def goTo (s : TcpTransport σ) (w : Nat) (stage : Stage) : TcpTransport σ :=
  { s with workers := s.workers.set w stage }

/-- The callback runs and the worker is free again. -/
def finish (s : TcpTransport σ) (w : Nat) (job : Job) (resp : Option Frame) : TcpTransport σ :=
  { s.goTo w .idle with callbacks := s.callbacks ++ [(job, resp)] }

def setSocket (s : TcpTransport σ) (fd : Nat) (sock : Option Socket) : TcpTransport σ :=
  { s with sockets := Function.update s.sockets fd sock }

/-- `conns_[to] = fd` for a new connection. -/
def connect (s : TcpTransport σ) (target : NodeId) (fd : Nat) : TcpTransport σ :=
  { s.setSocket fd (some ⟨target, [], [], false⟩) with conns := s.conns.insert target fd }

/-- `close`, and `-1` for the connection. -/
def disconnect (s : TcpTransport σ) (target : NodeId) : TcpTransport σ :=
  match s.conns.lookup target with
  | some fd => { s.setSocket fd none with conns := s.conns.erase target }
  | none => s

def step (s : TcpTransport σ) : Action σ → Option (TcpTransport σ)
  | .send target rpc =>
      if s.stopping then some s
      else some { s with queue := s.queue ++ [⟨s.calls, target, rpc⟩], calls := s.calls + 1 }
  | .stop => some { s with stopping := true }
  | .take w =>
      match s.workers[w]?, s.queue with
      | some .idle, job :: queue => some { s.goTo w (.started job) with queue }
      | _, _ => none
  | .getConn w connected =>
      match s.workers[w]? with
      | some (.started job) =>
          match s.conns.lookup job.target with
          | some fd => some (s.goTo w (.connected job fd))
          | none =>
              if job.target ∉ s.peerAddrs then some (s.finish w job none)
              else match connected with
                | none => some (s.finish w job none)
                | some fd =>
                    -- the system hands out a descriptor that is not in use
                    match s.sockets fd with
                    | some _ => none
                    | none => some ((s.connect job.target fd).goTo w (.connected job fd))
      | _ => none
  | .writeFrame w ok =>
      match s.workers[w]? with
      | some (.connected job fd) =>
          if ok then match s.sockets fd with
            | none => none
            | some sock =>
                -- what is written to a broken connection is lost
                let requests := if sock.broken then sock.requests
                  else sock.requests ++ [(job.call, s.frame job.rpc)]
                some ((s.setSocket fd (some { sock with requests })).goTo w (.written job fd))
          else some (s.goTo w (.unsent job))
      | _ => none
  | .readFrame w ok =>
      match s.workers[w]? with
      | some (.written job fd) =>
          if ok then match s.sockets fd with
            | none => none
            | some sock =>
                match sock.responses with
                | [] => none
                | (_, resp) :: responses =>
                    some ((s.setSocket fd (some { sock with responses })).finish w job (some resp))
          else some (s.goTo w (.unread job fd))
      | _ => none
  | .dropConn w =>
      match s.workers[w]? with
      | some (.unsent job) | some (.unread job _) =>
          some ((s.disconnect job.target).finish w job none)
      | _ => none
  | .connLoop fd =>
      match s.sockets fd with
      | some ⟨id, (call, request) :: requests, responses, false⟩ =>
          match (s.peers id).connLoop request with
          | some (p, resp) =>
              some { s.setSocket fd (some ⟨id, requests, responses ++ [(call, resp)], false⟩) with
                peers := Function.update s.peers id p
                served := s.served ++ [⟨call, id, s.peers id, resp⟩] }
          -- a frame the loop does not answer closes the connection
          | none => some (s.setSocket fd (some ⟨id, [], responses, true⟩))
      | _ => none
  | .breaks fd kept =>
      match s.sockets fd with
      | some sock => some (s.setSocket fd (some ⟨sock.peer, [], sock.responses.take kept, true⟩))
      | none => none
  | .peer id p => some { s with peers := Function.update s.peers id p }

/-- The round trip that worker `w` has going. -/
def pending (s : TcpTransport σ) (w : Nat) : Option (Job × Nat) :=
  s.workers[w]?.bind Stage.pending

/-- If `fd` is open, it is a connection to the peer of the job, and no round trip
is going on there. -/
def Free (s : TcpTransport σ) (job : Job) (fd : Nat) : Prop :=
  ∀ sock ∈ s.sockets fd, sock.peer = job.target ∧
    ∀ stage ∈ s.workers, stage.pending.map Prod.snd ≠ some fd

instance (s : TcpTransport σ) (job : Job) (fd : Nat) : Decidable (s.Free job fd) :=
  inferInstanceAs (Decidable (∀ sock ∈ s.sockets fd, _))

/-- A worker writes only on a connection to its peer where no round trip is going
on. -/
def Exclusive (s : TcpTransport σ) : Action σ → Prop
  | .writeFrame w true => ∀ p ∈ s.workers[w]?.bind Stage.writing, s.Free p.1 p.2
  | _ => True

instance (s : TcpTransport σ) : (a : Action σ) → Decidable (s.Exclusive a)
  | .writeFrame w true => inferInstanceAs (Decidable (∀ p ∈ s.workers[w]?.bind Stage.writing, _))
  | .writeFrame _ false | .send .. | .stop | .take _ | .getConn .. | .readFrame .. | .dropConn _
  | .connLoop _ | .breaks .. | .peer .. => .isTrue trivial

/-- The peer the request was for has answered it, with this response. -/
def Answered (s : TcpTransport σ) (job : Job) (resp : Frame) : Prop :=
  ∃ o ∈ s.served, o.call = job.call ∧ o.peer = job.target ∧ o.response = resp ∧
    (o.server.connLoop (s.frame job.rpc)).map Prod.snd = some resp

/-! ## Round trips -/

/-- Nothing is in flight, or the request of the job, or the answer to it. -/
inductive InFlight (s : TcpTransport σ) (sock : Socket) (job : Job) : Prop
  | request (hpeer : sock.peer = job.target)
      (hrequests : sock.requests = [(job.call, s.frame job.rpc)]) (hresponses : sock.responses = [])
  | response {resp : Frame} (hpeer : sock.peer = job.target) (hrequests : sock.requests = [])
      (hresponses : sock.responses = [(job.call, resp)]) (hanswered : s.Answered job resp)

theorem InFlight.peer_eq {s : TcpTransport σ} {sock : Socket} {job : Job}
    (h : s.InFlight sock job) : sock.peer = job.target := by
  cases h with
  | request hpeer => exact hpeer
  | response hpeer => exact hpeer

/-- What is in flight on a connection. -/
def Carries (s : TcpTransport σ) (fd : Nat) (sock : Socket) : Prop :=
  (sock.requests = [] ∧ sock.responses = []) ∨
    ∃ w job, s.pending w = some (job, fd) ∧ s.InFlight sock job

structure Orderly (s : TcpTransport σ) : Prop where
  /-- an open connection is a pooled one -/
  pooled : ∀ fd sock, s.sockets fd = some sock → s.conns.lookup sock.peer = some fd
  carries : ∀ fd sock, s.sockets fd = some sock → s.Carries fd sock
  alone : ∀ w w' job job' fd, s.pending w = some (job, fd) → s.pending w' = some (job', fd) → w = w'
  answered : ∀ job resp, (job, some resp) ∈ s.callbacks → s.Answered job resp

omit [StateMachine σ] in
theorem pending_of_stage {s : TcpTransport σ} {w : Nat} {stage : Stage}
    (h : s.workers[w]? = some stage) : s.pending w = stage.pending := by
  rw [pending, h]
  rfl

theorem pending_set {workers : List Stage} {w : Nat} {stage : Stage} (stage' : Stage)
    (h : workers[w]? = some stage) (w' : Nat) :
    (workers.set w stage')[w']?.bind Stage.pending =
      if w' = w then stage'.pending else workers[w']?.bind Stage.pending := by
  have hlt : w < workers.length := (List.getElem?_eq_some_iff.mp h).1
  rw [List.getElem?_set]
  by_cases heq : w' = w
  · rw [if_pos heq, if_pos heq.symm, if_pos hlt]
    rfl
  · rw [if_neg heq, if_neg (Ne.symm heq)]

theorem new_orderly (shardId : Nat) (peerAddrs : List NodeId) (workers : Nat)
    (peers : NodeId → PeerServer σ) : (new shardId peerAddrs workers peers).Orderly := by
  have hidle : ∀ w, (new shardId peerAddrs workers peers).pending w = none := by
    intro w
    simp only [pending, new, List.getElem?_replicate]
    split <;> rfl
  refine ⟨nofun, nofun, fun w _ job _ fd hw => ?_, nofun⟩
  rw [hidle w] at hw
  cases hw

section

variable {s t : TcpTransport σ}

theorem Answered.mono {job : Job} {resp : Frame} (hshard : t.shardId = s.shardId)
    (hserved : s.served ⊆ t.served) (h : s.Answered job resp) : t.Answered job resp := by
  obtain ⟨o, ho, hcall, hpeer, hresp, hloop⟩ := h
  refine ⟨o, hserved ho, hcall, hpeer, hresp, ?_⟩
  rwa [frame, hshard]

theorem InFlight.mono {sock : Socket} {job : Job} (hshard : t.shardId = s.shardId)
    (hserved : s.served ⊆ t.served) (h : s.InFlight sock job) : t.InFlight sock job := by
  cases h with
  | request hpeer hrequests hresponses =>
      exact .request hpeer (by rwa [frame, hshard]) hresponses
  | response hpeer hrequests hresponses hanswered =>
      exact .response hpeer hrequests hresponses (hanswered.mono hshard hserved)

/-- A connection on which a step does nothing. -/
theorem Carries.mono {fd : Nat} {sock : Socket} (hshard : t.shardId = s.shardId)
    (hserved : s.served ⊆ t.served) (h : s.Carries fd sock)
    (hpending : ∀ w job, s.pending w = some (job, fd) → s.InFlight sock job →
      t.pending w = some (job, fd)) : t.Carries fd sock := by
  refine h.imp_right fun ⟨w, job, hw, hflight⟩ => ?_
  exact ⟨w, job, hpending w job hw hflight, hflight.mono hshard hserved⟩

/-- A step away from the connections and the round trips. -/
theorem Orderly.congr (h : s.Orderly) (hshard : t.shardId = s.shardId)
    (hserved : t.served = s.served) (hsockets : t.sockets = s.sockets) (hconns : t.conns = s.conns)
    (hpending : ∀ w, t.pending w = s.pending w)
    (hcallbacks : ∀ job resp, (job, some resp) ∈ t.callbacks → (job, some resp) ∈ s.callbacks) :
    t.Orderly := by
  have hsub : s.served ⊆ t.served := by rw [hserved]; exact List.Subset.refl _
  refine ⟨fun fd sock hsock => ?_, fun fd sock hsock => ?_, fun w w' job job' fd hw hw' => ?_,
    fun job resp hmem => (h.answered job resp (hcallbacks job resp hmem)).mono hshard hsub⟩
  · rw [hsockets] at hsock
    rw [hconns]
    exact h.pooled fd sock hsock
  · rw [hsockets] at hsock
    refine (h.carries fd sock hsock).mono hshard hsub fun w job hw _ => ?_
    rw [hpending, hw]
  · rw [hpending] at hw hw'
    exact h.alone w w' job job' fd hw hw'

/-- A worker goes on without a round trip. -/
theorem Orderly.goTo (h : s.Orderly) {w : Nat} {stage : Stage} (stage' : Stage)
    (hstage : s.workers[w]? = some stage) (hsame : stage'.pending = stage.pending) :
    (s.goTo w stage').Orderly := by
  refine h.congr rfl rfl rfl rfl (fun w' => (pending_set stage' hstage w').trans ?_)
    fun _ _ hmem => hmem
  rw [hsame]
  split
  · next heq => rw [heq, pending_of_stage hstage]
  · rfl

omit [StateMachine σ] in
theorem mem_callbacks_finish {w : Nat} {job job' : Job} {resp : Option Frame} {resp' : Frame}
    (h : (job', some resp') ∈ (s.finish w job resp).callbacks) :
    (job', some resp') ∈ s.callbacks ∨ (job' = job ∧ resp = some resp') := by
  refine (List.mem_append.mp h).imp_right fun hlast => ?_
  cases List.mem_singleton.mp hlast
  exact ⟨rfl, rfl⟩

/-- A callback without a response; a round trip may end so if the connection it
used is gone. -/
theorem Orderly.finish_none (h : s.Orderly) {w : Nat} {stage : Stage} (job : Job)
    (hstage : s.workers[w]? = some stage)
    (hgone : ∀ job' fd, stage.pending = some (job', fd) → s.conns.lookup job'.target = none) :
    (s.finish w job none).Orderly := by
  have hpending := pending_set .idle hstage
  have hbefore : ∀ w' p, (s.finish w job none).pending w' = some p → s.pending w' = some p := by
    intro w' p hw'
    replace hw' := (hpending w').symm.trans hw'
    split at hw'
    · cases hw'
    · exact hw'
  refine ⟨h.pooled, fun fd sock hsock => ?_, fun w₁ w₂ job₁ job₂ fd h₁ h₂ => ?_,
    fun job' resp hmem => h.answered job' resp ((mem_callbacks_finish hmem).resolve_right nofun)⟩
  · refine Carries.mono (s := s) rfl (List.Subset.refl _) (h.carries fd sock hsock)
      fun w' job' hw' hflight => (hpending w').trans ?_
    by_cases heq : w' = w
    · -- this worker's frames are on a pooled connection to its peer
      subst heq
      have hnone := hgone job' fd ((pending_of_stage hstage).symm.trans hw')
      have hsome := h.pooled fd sock hsock
      rw [hflight.peer_eq, hnone] at hsome
      cases hsome
    · exact (if_neg heq).trans hw'
  · exact h.alone w₁ w₂ job₁ job₂ fd (hbefore w₁ _ h₁) (hbefore w₂ _ h₂)

/-! ## One connection -/

/-- A step on the connection `fd`. -/
theorem Orderly.onSocket (h : s.Orderly) (fd : Nat) (hshard : t.shardId = s.shardId)
    (hserved : s.served ⊆ t.served) (hsockets : ∀ fd', fd' ≠ fd → t.sockets fd' = s.sockets fd')
    (hpooled : ∀ fd' sock, t.sockets fd' = some sock → t.conns.lookup sock.peer = some fd')
    (hpending : ∀ w job fd', fd' ≠ fd →
      (t.pending w = some (job, fd') ↔ s.pending w = some (job, fd')))
    (halone : ∀ w w' job job', t.pending w = some (job, fd) → t.pending w' = some (job', fd) →
      w = w')
    (hcarries : ∀ sock, t.sockets fd = some sock → t.Carries fd sock)
    (hcallbacks : ∀ job resp, (job, some resp) ∈ t.callbacks →
      (job, some resp) ∈ s.callbacks ∨ t.Answered job resp) : t.Orderly := by
  refine ⟨hpooled, fun fd' sock hsock => ?_, fun w w' job job' fd' hw hw' => ?_,
    fun job resp hmem => ?_⟩
  · -- the one socket that changed, and all others
    by_cases heq : fd' = fd
    · subst heq
      exact hcarries sock hsock
    · rw [hsockets fd' heq] at hsock
      exact (h.carries fd' sock hsock).mono hshard hserved fun w job hw _ =>
        (hpending w job fd' heq).mpr hw
  · by_cases heq : fd' = fd
    · subst heq
      exact halone w w' job job' hw hw'
    · exact h.alone w w' job job' fd' ((hpending w job fd' heq).mp hw)
        ((hpending w' job' fd' heq).mp hw')
  · exact (hcallbacks job resp hmem).elim
      (fun hmem => (h.answered job resp hmem).mono hshard hserved) id

/-- A worker begins or ends a round trip on `fd`. -/
theorem pending_set_iff {workers : List Stage} {w : Nat} {stage : Stage} (stage' : Stage)
    (hstage : workers[w]? = some stage) {fd : Nat}
    (hbefore : ∀ job fd', stage.pending = some (job, fd') → fd' = fd)
    (hafter : ∀ job fd', stage'.pending = some (job, fd') → fd' = fd) (w' : Nat) (job : Job)
    (fd' : Nat) (hne : fd' ≠ fd) :
    (workers.set w stage')[w']?.bind Stage.pending = some (job, fd') ↔
      workers[w']?.bind Stage.pending = some (job, fd') := by
  rw [pending_set stage' hstage]
  split
  · next heq =>
    rw [heq, hstage]
    exact iff_of_false (fun hj => hne (hafter job fd' hj)) fun hj => hne (hbefore job fd' hj)
  · exact Iff.rfl

omit [StateMachine σ] in
theorem setSocket_self {fd : Nat} {o : Option Socket} : (s.setSocket fd o).sockets fd = o :=
  Function.update_self ..

omit [StateMachine σ] in
theorem setSocket_of_ne {fd fd' : Nat} {o : Option Socket} (h : fd' ≠ fd) :
    (s.setSocket fd o).sockets fd' = s.sockets fd' :=
  Function.update_of_ne h ..

omit [StateMachine σ] in
/-- The connection of a step keeps its peer. -/
theorem pooled_setSocket {fd : Nat} {sock sock' : Socket}
    (h : ∀ fd' sock, s.sockets fd' = some sock → s.conns.lookup sock.peer = some fd')
    (hsock : s.sockets fd = some sock) (hpeer : sock'.peer = sock.peer) (fd' : Nat)
    (sock'' : Socket) (hsock'' : (s.setSocket fd (some sock')).sockets fd' = some sock'') :
    s.conns.lookup sock''.peer = some fd' := by
  by_cases heq : fd' = fd
  · subst heq
    cases setSocket_self.symm.trans hsock''
    rw [hpeer]
    exact h fd' sock hsock
  · exact h fd' sock'' ((setSocket_of_ne heq).symm.trans hsock'')

/-- A new connection. -/
theorem Orderly.connect (h : s.Orderly) {target : NodeId} {fd : Nat}
    (hconns : s.conns.lookup target = none) : (s.connect target fd).Orderly := by
  refine h.onSocket fd rfl (List.Subset.refl _) (fun _ hne => setSocket_of_ne hne)
    (fun fd' sock hsock => ?_) (fun _ _ _ _ => Iff.rfl)
    (fun w w' job job' => h.alone w w' job job' fd) (fun sock hsock => ?_)
    fun _ _ hmem => .inl hmem
  · by_cases heq : fd' = fd
    · subst heq
      cases (setSocket_self (s := s)).symm.trans hsock
      exact AList.lookup_insert _
    · have hold := h.pooled fd' sock ((setSocket_of_ne heq).symm.trans hsock)
      have hother : sock.peer ≠ target := fun hpeer => by
        rw [hpeer, hconns] at hold
        cases hold
      exact (AList.lookup_insert_ne hother).trans hold
  · cases (setSocket_self (s := s)).symm.trans hsock
    exact .inl ⟨rfl, rfl⟩

theorem Orderly.writeFrame (h : s.Orderly) {w fd : Nat} {job : Job} {sock : Socket}
    (hstage : s.workers[w]? = some (.connected job fd)) (hsock : s.sockets fd = some sock)
    (hpeer : sock.peer = job.target) (hfree : ∀ w' job', s.pending w' ≠ some (job', fd)) :
    Orderly ((s.setSocket fd (some { sock with
      requests := if sock.broken then sock.requests
        else sock.requests ++ [(job.call, s.frame job.rpc)] })).goTo w (.written job fd)) := by
  -- nobody has a round trip going, so nothing is in flight
  obtain ⟨hrequests, hresponses⟩ : sock.requests = [] ∧ sock.responses = [] :=
    (h.carries fd sock hsock).resolve_right fun ⟨w', job', hw', _⟩ => hfree w' job' hw'
  have hpending := pending_set (.written job fd) hstage
  refine h.onSocket fd rfl (List.Subset.refl _) (fun _ hne => setSocket_of_ne hne)
    (pooled_setSocket h.pooled hsock rfl)
    (pending_set_iff (.written job fd) hstage nofun fun _ _ hj => ?_)
    (fun w₁ w₂ job₁ job₂ h₁ h₂ => ?_) (fun sock' hsock' => ?_) fun _ _ hmem => .inl hmem
  · cases hj
    rfl
  · -- the worker that writes is the only one on this socket
    have hw : ∀ w' job', (if w' = w then Stage.pending (.written job fd) else s.pending w') =
        some (job', fd) → w' = w := by
      intro w' job' hw'
      by_contra hne
      rw [if_neg hne] at hw'
      exact hfree w' job' hw'
    rw [hw w₁ job₁ ((hpending w₁).symm.trans h₁), hw w₂ job₂ ((hpending w₂).symm.trans h₂)]
  · cases (setSocket_self (s := s)).symm.trans hsock'
    -- a broken connection takes nothing; otherwise the request alone is in flight
    cases hbroken : sock.broken with
    | true => exact .inl ⟨by rw [if_pos rfl, hrequests], hresponses⟩
    | false =>
        refine .inr ⟨w, job, (hpending w).trans (if_pos rfl), .request hpeer ?_ hresponses⟩
        rw [if_neg Bool.false_ne_true, hrequests]
        rfl

theorem Orderly.readFrame (h : s.Orderly) {w fd call : Nat} {job : Job} {sock : Socket}
    {resp : Frame} {responses : List (Nat × Frame)}
    (hstage : s.workers[w]? = some (.written job fd)) (hsock : s.sockets fd = some sock)
    (hresponses : sock.responses = (call, resp) :: responses) :
    ((s.setSocket fd (some { sock with responses })).finish w job (some resp)).Orderly := by
  have hw : s.pending w = some (job, fd) := pending_of_stage hstage
  -- the answer in flight belongs to the one worker that waits here
  obtain ⟨hrequests, hanswered, hrest⟩ :
      sock.requests = [] ∧ s.Answered job resp ∧ responses = [] := by
    rcases h.carries fd sock hsock with ⟨-, hnone⟩ | ⟨w', job', hw', hflight⟩
    · rw [hresponses] at hnone
      cases hnone
    · obtain rfl : w' = w := h.alone w' w job' job fd hw' hw
      obtain rfl : job' = job := congrArg Prod.fst (Option.some.inj (hw'.symm.trans hw))
      cases hflight with
      | request _ _ hnone =>
          rw [hresponses] at hnone
          cases hnone
      | response _ hrequests hone hanswered =>
          rw [hresponses] at hone
          cases hone
          exact ⟨hrequests, hanswered, rfl⟩
  have hpending := pending_set .idle hstage
  refine h.onSocket fd rfl (List.Subset.refl _) (fun _ hne => setSocket_of_ne hne)
    (pooled_setSocket h.pooled hsock rfl)
    (pending_set_iff .idle hstage (fun _ _ hj => ?_) nofun)
    (fun w₁ w₂ job₁ job₂ h₁ h₂ => ?_) (fun sock' hsock' => ?_) fun job' resp' hmem => ?_
  · -- the worker leaves the socket, and no other was on it
    cases hj
    rfl
  · have hold : ∀ w' job', (if w' = w then Stage.pending .idle else s.pending w') =
        some (job', fd) → s.pending w' = some (job', fd) := by
      intro w' job' hw'
      split at hw'
      · cases hw'
      · exact hw'
    exact h.alone w₁ w₂ job₁ job₂ fd (hold w₁ job₁ ((hpending w₁).symm.trans h₁))
      (hold w₂ job₂ ((hpending w₂).symm.trans h₂))
  · -- the answer was all there was in flight
    cases (setSocket_self (s := s)).symm.trans hsock'
    exact .inl ⟨hrequests, hrest⟩
  · refine (mem_callbacks_finish hmem).imp_right fun ⟨hjob, hresp⟩ => ?_
    cases hresp
    rw [hjob]
    exact hanswered

omit [StateMachine σ] in
theorem disconnect_lookup (target : NodeId) :
    (s.disconnect target).conns.lookup target = none := by
  unfold disconnect
  split
  next => exact AList.lookup_erase _ _
  next hnone => exact hnone

omit [StateMachine σ] in
theorem disconnect_workers (target : NodeId) : (s.disconnect target).workers = s.workers := by
  unfold disconnect
  split <;> rfl

theorem Orderly.disconnect (h : s.Orderly) (target : NodeId) : (s.disconnect target).Orderly := by
  unfold TcpTransport.disconnect
  split
  next fd hconn =>
    refine h.onSocket fd rfl (List.Subset.refl _) (fun _ hne => setSocket_of_ne hne)
      (fun fd' sock hsock => ?_) (fun _ _ _ _ => Iff.rfl)
      (fun w w' job job' => h.alone w w' job job' fd) (fun sock hsock => ?_)
      fun _ _ hmem => .inl hmem
    · have hne : fd' ≠ fd := by
        rintro rfl
        cases (setSocket_self (s := s)).symm.trans hsock
      have hold := h.pooled fd' sock ((setSocket_of_ne hne).symm.trans hsock)
      have hother : sock.peer ≠ target := fun hpeer => by
        rw [hpeer, hconn] at hold
        exact hne (Option.some.inj hold).symm
      exact (AList.lookup_erase_ne hother).trans hold
    · cases (setSocket_self (s := s)).symm.trans hsock
  next => exact h

theorem Orderly.dropConn (h : s.Orderly) {w : Nat} {stage : Stage} {job : Job}
    (hstage : s.workers[w]? = some stage)
    (hjob : ∀ job' fd, stage.pending = some (job', fd) → job' = job) :
    ((s.disconnect job.target).finish w job none).Orderly := by
  have hworkers : (s.disconnect job.target).workers[w]? = some stage := by
    rwa [disconnect_workers]
  refine (h.disconnect job.target).finish_none job hworkers fun job' fd hpending => ?_
  rw [hjob job' fd hpending]
  exact disconnect_lookup job.target

theorem Orderly.breaks (h : s.Orderly) {fd : Nat} {sock : Socket} (hsock : s.sockets fd = some sock)
    (kept : Nat) :
    (s.setSocket fd (some ⟨sock.peer, [], sock.responses.take kept, true⟩)).Orderly := by
  refine h.onSocket fd rfl (List.Subset.refl _) (fun _ hne => setSocket_of_ne hne)
    (pooled_setSocket h.pooled hsock rfl) (fun _ _ _ _ => Iff.rfl)
    (fun w w' job job' => h.alone w w' job job' fd) (fun sock' hsock' => ?_)
    fun _ _ hmem => .inl hmem
  cases (setSocket_self (s := s)).symm.trans hsock'
  rcases h.carries fd sock hsock with ⟨-, hresponses⟩ | ⟨w, job, hw, hflight⟩
  · exact .inl ⟨rfl, by rw [hresponses, List.take_nil]⟩
  · cases hflight with
    | request _ _ hresponses => exact .inl ⟨rfl, by rw [hresponses, List.take_nil]⟩
    | response hpeer _ hresponses hanswered =>
        cases kept with
        | zero => exact .inl ⟨rfl, rfl⟩
        | succ kept =>
            refine .inr ⟨w, job, hw, .response hpeer rfl ?_ hanswered⟩
            rw [hresponses, List.take_succ_cons, List.take_nil]

/-- The peer answers a request. -/
theorem Orderly.serve (h : s.Orderly) {fd call : Nat} {id : NodeId} {request resp : Frame}
    {requests responses : List (Nat × Frame)} {p : PeerServer σ}
    (hsock : s.sockets fd = some ⟨id, (call, request) :: requests, responses, false⟩)
    (hloop : (s.peers id).connLoop request = some (p, resp)) :
    Orderly { s.setSocket fd (some ⟨id, requests, responses ++ [(call, resp)], false⟩) with
      peers := Function.update s.peers id p
      served := s.served ++ [⟨call, id, s.peers id, resp⟩] } := by
  refine h.onSocket fd rfl (List.subset_append_left _ _) (fun _ hne => setSocket_of_ne hne)
    (pooled_setSocket h.pooled hsock rfl) (fun _ _ _ _ => Iff.rfl)
    (fun w w' job job' => h.alone w w' job job' fd) (fun sock' hsock' => ?_)
    fun _ _ hmem => .inl hmem
  cases (setSocket_self (s := s)).symm.trans hsock'
  -- a request in flight is that of the one worker that waits for it
  rcases h.carries fd _ hsock with ⟨hnone, -⟩ | ⟨w, job, hw, hflight⟩
  · cases hnone
  · cases hflight with
    | request hpeer hrequests hresponses =>
        cases hrequests
        cases hresponses
        refine .inr ⟨w, job, hw, .response hpeer rfl rfl ⟨_, List.mem_append_right _
          List.mem_cons_self, rfl, hpeer, rfl, ?_⟩⟩
        change ((s.peers id).connLoop (s.frame job.rpc)).map Prod.snd = some resp
        rw [hloop]
        rfl
    | response _ hnone => cases hnone

theorem Orderly.step {a : Action σ} (h : s.Orderly) (hok : s.Exclusive a)
    (hstep : s.step a = some t) : t.Orderly := by
  cases a with
  | send target rpc =>
      rw [TcpTransport.step] at hstep
      split at hstep <;> cases hstep
      · exact h
      · exact h.congr rfl rfl rfl rfl (fun _ => rfl) fun _ _ hmem => hmem
  | stop =>
      cases hstep
      exact h.congr rfl rfl rfl rfl (fun _ => rfl) fun _ _ hmem => hmem
  | take w =>
      rw [TcpTransport.step] at hstep
      split at hstep
      next job queue hstage hqueue =>
        cases hstep
        have hgo := h.goTo (.started job) hstage rfl
        exact hgo.congr rfl rfl rfl rfl (fun _ => rfl) fun _ _ hmem => hmem
      next => cases hstep
  | getConn w connected =>
      rw [TcpTransport.step] at hstep
      split at hstep
      next job hstage =>
        split at hstep
        next fd hconn =>
          cases hstep
          exact h.goTo _ hstage rfl
        next hconn =>
          split at hstep
          next =>
            cases hstep
            exact h.finish_none job hstage nofun
          next =>
            split at hstep
            next =>
              cases hstep
              exact h.finish_none job hstage nofun
            next fd =>
              -- a new connection, on a descriptor that was free
              split at hstep <;> cases hstep
              have hstarted : (s.connect job.target fd).workers[w]? = some (.started job) := hstage
              exact (h.connect hconn).goTo _ hstarted rfl
      next => cases hstep
  | writeFrame w ok =>
      rw [TcpTransport.step] at hstep
      split at hstep
      next job fd hstage =>
        cases ok with
        | false =>
            cases hstep
            exact h.goTo _ hstage rfl
        | true =>
            rw [if_pos rfl] at hstep
            split at hstep
            next => cases hstep
            next sock hsock =>
              cases hstep
              have hwriting : (job, fd) ∈ s.workers[w]?.bind Stage.writing := by
                rw [hstage]
                rfl
              -- the condition: nobody else has a round trip on this connection
              obtain ⟨hpeer, hfree⟩ := hok (job, fd) hwriting sock hsock
              refine h.writeFrame hstage hsock hpeer fun w' job' hw' => ?_
              obtain ⟨stage, hmem, hpending⟩ := Option.bind_eq_some_iff.mp hw'
              exact hfree stage (List.mem_of_getElem? hmem) (by rw [hpending]; rfl)
      next => cases hstep
  | readFrame w ok =>
      rw [TcpTransport.step] at hstep
      split at hstep
      next job fd hstage =>
        cases ok with
        | false =>
            cases hstep
            exact h.goTo _ hstage rfl
        | true =>
            rw [if_pos rfl] at hstep
            split at hstep
            next => cases hstep
            next sock hsock =>
              split at hstep
              next => cases hstep
              next hresponses =>
                cases hstep
                exact h.readFrame hstage hsock hresponses
      next => cases hstep
  | dropConn w =>
      rw [TcpTransport.step] at hstep
      split at hstep
      next job hstage =>
        cases hstep
        exact h.dropConn hstage nofun
      next job fd hstage =>
        cases hstep
        refine h.dropConn hstage fun job' fd' hpending => ?_
        cases hpending
        rfl
      next => cases hstep
  | connLoop fd =>
      rw [TcpTransport.step] at hstep
      split at hstep
      next id call request requests responses hsock =>
        split at hstep
        next p resp hloop =>
          cases hstep
          exact h.serve hsock hloop
        -- a refused frame breaks the connection, with the answers so far still to be read
        next =>
          cases hstep
          have hbroken := h.breaks hsock responses.length
          rwa [List.take_length] at hbroken
      next => cases hstep
  | breaks fd kept =>
      rw [TcpTransport.step] at hstep
      split at hstep
      next sock hsock =>
        cases hstep
        exact h.breaks hsock kept
      next => cases hstep
  | peer id p =>
      cases hstep
      exact h.congr rfl rfl rfl rfl (fun _ => rfl) fun _ _ hmem => hmem

end

end TcpTransport

/-- **Each call gets its own response**, if a worker writes only on a connection
where no round trip is going on. -/
theorem own_response {σ : Type} [StateMachine σ] {shardId : Nat} {peerAddrs : List NodeId}
    {workers : Nat} {peers : NodeId → PeerServer σ} {t : TcpTransport σ}
    (r : Run TcpTransport.step TcpTransport.Exclusive
      (TcpTransport.new shardId peerAddrs workers peers) t) {job : Job} {resp : Frame}
    (hcallback : (job, some resp) ∈ t.callbacks) :
    t.Answered job resp ∧ resp.type = job.rpc.respType := by
  have horderly : t.Orderly := r.invariant (TcpTransport.new_orderly ..)
    fun _ _ _ h hok hstep => h.step hok hstep
  have hanswered := horderly.answered job resp hcallback
  refine ⟨hanswered, ?_⟩
  obtain ⟨o, -, -, -, -, hresp⟩ := hanswered
  obtain ⟨⟨p, resp'⟩, hloop, rfl⟩ := Option.map_eq_some_iff.mp hresp
  exact PeerServer.connLoop_type hloop

/-! ## Two workers and one peer -/

/-- A transport of node 1 with two workers; its peer, node 2, has just started. -/
def twoWorkers : TcpTransport KvStore :=
  .new 0 [2] 2 fun id => ⟨(∅ : AList fun _ : Nat => RaftNode KvStore).insert 0
    (.new id 1000 ⟨[1, 2, 3], []⟩ .empty 0 [])⟩

/-- Node 1 asks node 2 for its vote and, leader by the vote of another node, sends
it the first heartbeat. -/
def twoSent : List (TcpTransport.Action KvStore) :=
  [.send 2 (.requestVote ⟨1, 1, 0, 0⟩ 2), .send 2 (.appendEntries ⟨1, 1, 0, 0, [], 0⟩), .take 0,
    .take 1, .getConn 0 (some 5), .getConn 1 none]

open TcpTransport.Action (writeFrame connLoop readFrame)

/-- One round trip after the other. -/
def inTurn : TcpTransport KvStore :=
  replay TcpTransport.step twoWorkers (twoSent ++ [writeFrame 0 true, connLoop 5,
    readFrame 0 true, writeFrame 1 true, connLoop 5, readFrame 1 true])

/-- Both requests are written before the first answer is read. -/
def overlapping : TcpTransport KvStore :=
  replay TcpTransport.step twoWorkers (twoSent ++ [writeFrame 0 true, writeFrame 1 true,
    connLoop 5, connLoop 5, readFrame 1 true, readFrame 0 true])

theorem inTurn_run : Run TcpTransport.step TcpTransport.Exclusive twoWorkers inTurn :=
  run_replay (by decide +kernel)

/-- Both callbacks get their own answers. -/
theorem own_response_of_inTurn :
    inTurn.callbacks.map (fun c => c.2.map Frame.type) =
      [some .requestVoteResp, some .appendEntriesResp] ∧
    ∀ c ∈ inTurn.callbacks, ∀ resp ∈ c.2, inTurn.Answered c.1 resp ∧
      resp.type = c.1.rpc.respType := by
  refine ⟨by decide +kernel, fun c hc resp hresp => own_response inTurn_run ?_⟩
  rwa [← Option.mem_def.mp hresp]

/-- **The answers are swapped.**  The heartbeat's callback gets the vote, whose
payload is too short for it, and the vote's callback gets the answer to the
heartbeat. -/
theorem responses_swapped :
    Run TcpTransport.step (fun _ _ => True) twoWorkers overlapping ∧
      overlapping.callbacks.map (fun c => (c.1.call, c.1.rpc.respType)) =
        [(1, .appendEntriesResp), (0, .requestVoteResp)] ∧
      overlapping.callbacks.map (fun c => c.2.map Frame.type) =
        [some .requestVoteResp, some .appendEntriesResp] ∧
      overlapping.served.map (fun o => (o.call, o.response.type)) =
        [(0, .requestVoteResp), (1, .appendEntriesResp)] ∧
      overlapping.callbacks.map
        (fun c => c.2.map fun resp => (c.1.rpc.decodeResp resp.payload).isOk) =
        [some false, some true] := by
  refine ⟨run_replay ?_, ?_, ?_, ?_, ?_⟩ <;> decide +kernel

end KvRaft
