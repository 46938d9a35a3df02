import KvRaft.FixedConfig
import KvRaft.KvClient
import KvRaft.Main
import KvRaft.Service

/-!
# KvRaft.Redirect

Where a client is sent that asks the wrong member.  A deployment does not change its
configuration, so every member's is the one of the command line
(`Cluster.keepsConfig_of_run`), and the addresses in it are those of the peer ports.  A
leader hint is such an address; the peer server there ends the connection at the first
frame of a client (`PeerServer.connLoop_clientRequest`).  So no request is ever answered
at the address it was redirected to (`redirected_unanswered`).
-/

namespace KvRaft

variable {σ : Type}

/-! ## Addresses -/

open Main Text

/-- Host and port of an address, as `pooledConn` reads them. -/
def KvClient.hostPort (addr : Bytes) : Except Thrown (Bytes × Int) := do
  let pos := find addr colon 0
  let host ← substr addr 0 pos
  let port ← stoi (← substr addr (sizeT (pos + 1)) npos)
  return (host, port)

theorem KvClient.hostPort_address {host : Bytes} {port : Nat} (hhost : colon ∉ host)
    (hport : port < 2 ^ 31) (hlen : (address host port).length < 2 ^ 64) :
    hostPort (address host port) = .ok (host, (port : Int)) := by
  have hsplit : address host port = (host ++ [colon]) ++ decimal port := by
    simp [address, decimalInt]
  have hshort : host.length + 1 + (decimal port).length < 2 ^ 64 := by
    rw [hsplit] at hlen
    simp only [List.length_append, List.length_cons, List.length_nil] at hlen
    omega
  have hpos : find (address host port) colon 0 = host.length :=
    (find_append (p := []) hhost rfl).trans (Nat.zero_add _)
  have hfirst : substr (address host port) 0 host.length = .ok host :=
    substr_append (p := []) rfl rfl
  have hrest : substr (address host port) (sizeT (host.length + 1)) npos = .ok (decimal port) := by
    rw [sizeT_succ (by omega), hsplit]
    exact substr_of_le (by simp) (by unfold npos; omega)
  unfold hostPort
  simp only [hpos, hfirst, hrest, stoi_decimal hport, bind, Except.bind, pure, Except.pure]

theorem Main.Member.colon_not_mem_host {m : Member} (h : m.Fits) : colon ∉ m.host := by
  obtain ⟨-, -, hm⟩ := h
  cases m with
  | full => exact hm.2.1
  | noPort => exact hm.1
  | bare id => exact colon_not_mem_decimal id

/-- A peer server ends the connection at the first frame of a client. -/
theorem PeerServer.connLoop_clientRequest [StateMachine σ] (p : PeerServer σ) (payload : Bytes) :
    p.connLoop ⟨.clientRequest, payload⟩ = none := by
  simp [connLoop]

namespace Deployment

/-- A listening socket of a process. -/
inductive Listener
  | peer (id : NodeId)
  | client (id : NodeId)
  deriving DecidableEq

/-- Who listens where: at the places of the list of members their peer servers do. -/
structure Network (D : Deployment) where
  listener : Bytes × Int → Option Listener
  peers : ∀ p ∈ D.processes, listener (p.member.host, p.member.port) = some (.peer p.id)
  addr_length : ∀ p ∈ D.processes, p.member.addr.length < 2 ^ 32

/-- The states the processes may come to. -/
def Reachable (D : Deployment) (c : Cluster KvStore) : Prop :=
  Run Cluster.step Cluster.FixedMembership D.setup.start c

/-- `bytes` may be the response of a member to a client, as it is dispatched or after
it has waited. -/
inductive Responds (D : Deployment) (id : NodeId) : Bytes → Prop
  | atOnce {c : Cluster KvStore} (hc : D.Reachable c) {groups : Bytes → Option (RaftNode KvStore)}
      (hgroups : ∀ key n, groups key = some n → n = c.nodes id) {frame bytes : Bytes}
      {n : Option (RaftNode KvStore)}
      (h : KvServer.dispatch groups frame = .ok (n, .answered bytes)) : Responds D id bytes
  | read {c : Cluster KvStore} (hc : D.Reachable c) {key bytes : Bytes} {target : Nat}
      (h : KvServer.finishRead (c.nodes id) key target = some bytes) : Responds D id bytes
  | readTimeout {c : Cluster KvStore} (hc : D.Reachable c) :
      Responds D id (KvServer.response 2 (KvServer.addrOf (c.nodes id)) [])
  | written {c : Cluster KvStore} (hc : D.Reachable c) {proposed : ProposeResult} {bytes : Bytes}
      (h : KvServer.finishWrite (c.nodes id) proposed = some bytes) : Responds D id bytes
  | writeTimeout : Responds D id (KvServer.response 4 [] [])

/-- `bytes` may be read from a connection to `addr` on which a client has sent a frame. -/
inductive Network.Answers {D : Deployment} (net : D.Network) (addr : Bytes) : Bytes → Prop
  | client {a : Bytes × Int} {id : NodeId} {bytes : Bytes} (haddr : KvClient.hostPort addr = .ok a)
      (hlistener : net.listener a = some (.client id)) (h : D.Responds id bytes) :
      Answers net addr bytes
  | peer {a : Bytes × Int} {id : NodeId} (haddr : KvClient.hostPort addr = .ok a)
      (hlistener : net.listener a = some (.peer id)) {p p' : PeerServer KvStore} {payload : Bytes}
      {resp : Frame} (h : p.connLoop ⟨.clientRequest, payload⟩ = some (p', resp)) :
      Answers net addr resp.payload

variable {D : Deployment}

/-- The address of the leader, if any, is on the list of members. -/
theorem Reachable.addrOf {c : Cluster KvStore} (h : D.Reachable c) (id : NodeId) :
    KvServer.addrOf (c.nodes id) = [] ∨
      ∃ p ∈ D.processes, KvServer.addrOf (c.nodes id) = p.member.addr := by
  have hconfig : (c.nodes id).config = D.config :=
    ((Cluster.keepsConfig_of_run D.setup h).nodes id).config_eq
  unfold KvServer.addrOf
  rw [hconfig]
  cases hfind : D.config.addresses.find? (·.1 == (c.nodes id).leaderId) with
  | none => exact .inl rfl
  | some entry =>
      obtain ⟨p, hp, rfl⟩ := List.mem_map.mp (List.mem_of_find?_eq_some hfind)
      exact .inr ⟨p, hp, rfl⟩

/-- A response names no leader or one by its address on the list of members. -/
theorem Responds.hint {id : NodeId} {bytes : Bytes} (h : D.Responds id bytes) :
    ∃ status leaderHint value, bytes = KvServer.response status leaderHint value ∧
      (leaderHint = [] ∨ ∃ p ∈ D.processes, leaderHint = p.member.addr) := by
  cases h with
  | atOnce hc hgroups h =>
      have hdispatches := KvServer.dispatches h
      cases hdispatches with
      -- only a refusal carries a hint, which is where the node sees its leader
      | absent => exact ⟨2, [], [], rfl, .inl rfl⟩
      | refused _ hn =>
          rw [hgroups _ _ hn]
          exact ⟨2, _, [], rfl, hc.addrOf id⟩
  | read hc h =>
      unfold KvServer.finishRead at h
      split at h
      · split at h <;> cases h
        · exact ⟨0, [], _, rfl, .inl rfl⟩
        · exact ⟨1, [], [], rfl, .inl rfl⟩
      · cases h
  | readTimeout hc => exact ⟨2, _, [], rfl, hc.addrOf id⟩
  | written hc h =>
      obtain ⟨result, -, rfl⟩ := Option.map_eq_some_iff.mp h
      unfold KvServer.writeResponse
      split
      · exact ⟨3, [], [], rfl, .inl rfl⟩
      · exact ⟨0, [], _, rfl, .inl rfl⟩
  | writeTimeout => exact ⟨4, [], [], rfl, .inl rfl⟩

/-- Nobody answers a client at an address on the list of members. -/
theorem Network.not_answers_addr (net : D.Network) {p : Deployed} (hp : p ∈ D.processes)
    (bytes : Bytes) : ¬ net.Answers p.member.addr bytes := by
  have hfits : p.member.Fits := (D.fits p hp).members _ (List.mem_map_of_mem hp)
  have haddr : KvClient.hostPort p.member.addr = .ok (p.member.host, (p.member.port : Int)) :=
    KvClient.hostPort_address (Member.colon_not_mem_host hfits) hfits.2.1
      (Nat.lt_trans (net.addr_length p hp) (by decide))
  intro h
  cases h with
  | client haddr' hlistener =>
      obtain rfl := Except.ok.inj (haddr.symm.trans haddr')
      rw [net.peers p hp] at hlistener
      cases hlistener
  | peer _ _ h =>
      rw [PeerServer.connLoop_clientRequest] at h
      cases h

end Deployment

/-! ## The attempts of a client -/

namespace KvClient

/-- The address attempt `k` goes to, if the call comes so far. -/
def addrAt (servers : List Bytes) (world : Nat → Exchange) (first : Bytes) : Nat → Bytes
  | 0 => first
  | k + 1 =>
      match world k with
      | .unreachable => servers.getD (k % servers.length) []
      | .answered response =>
          match getResponse.run' response with
          | .ok (_, leaderHint, _) =>
              if leaderHint ≠ [] then leaderHint else addrAt servers world first k
          | .error _ => addrAt servers world first k
      | _ => addrAt servers world first k

/-- Attempt `k` gets status 0. -/
def Succeeds (world : Nat → Exchange) (k : Nat) : Prop :=
  ∃ bytes leaderHint val, world k = .answered bytes ∧
    getResponse.run' bytes = .ok (0, leaderHint, val)

/-- If the call succeeds it does so at one attempt, not before number `k`, and has sent
its frames to the addresses of the attempts up to that one. -/
def Requested.EndsAt (q : Requested) (addr : Nat → Bytes) (world : Nat → Exchange) (k : Nat) :
    Prop :=
  ∀ val, q.result = .ok (true, val) → ∃ j, k ≤ j ∧ j < 5 ∧ Succeeds world j ∧
    (∀ p ∈ q.sent, ∃ i ≤ j, p.1 = addr i) ∧ ∃ f, q.sent.getLast? = some (addr j, f)

theorem Requested.EndsAt.after {q : Requested} {addr : Nat → Bytes} {world : Nat → Exchange}
    {k : Nat} (h : q.EndsAt addr world (k + 1)) (f : Bytes) :
    (q.after (addr k) f).EndsAt addr world k := by
  intro val hval
  obtain ⟨j, hkj, hj, hsucceeds, hsent, f', hlast⟩ := h val hval
  refine ⟨j, Nat.le_of_succ_le hkj, hj, hsucceeds, fun p hp => ?_, f', ?_⟩
  · rcases List.mem_cons.mp hp with rfl | hp
    · exact ⟨k, Nat.le_of_succ_le hkj, rfl⟩
    · exact hsent p hp
  · rw [Requested.after, List.getLast?_cons, hlast]
    rfl

theorem attempts_endsAt {servers : List Bytes} {r : Request} {world : Nat → Exchange}
    {first : Bytes} {k turns : Nat} (hk : k + turns = 5) (c : KvClient) :
    (attempts servers r world turns c (addrAt servers world first k)).EndsAt
      (addrAt servers world first) world k := by
  induction turns generalizing k c with
  | zero =>
      intro val hval
      cases hval
  | succ turns ih =>
      -- one attempt less, from whatever address the last one left
      have hnext : ∀ (c' : KvClient) addr, addr = addrAt servers world first (k + 1) →
          (attempts servers r world turns c' addr).EndsAt (addrAt servers world first) world
            (k + 1) := by
        rintro c' addr rfl
        exact ih (by omega) c'
      rw [attempts, show 5 - (turns + 1) = k by omega]
      cases hworld : world k with
      | noPort what =>
          intro val hval
          cases hval
      -- nobody listens there: the next server of the list is tried, and nothing was sent
      | unreachable =>
          have hrest := hnext c (servers.getD (k % servers.length) []) (by rw [addrAt, hworld])
          intro val hval
          obtain ⟨j, hkj, hj⟩ := hrest val hval
          exact ⟨j, Nat.le_of_succ_le hkj, hj⟩
      -- the connection failed: the same address again
      | unsent | unanswered =>
          exact (hnext (c.draw r) _ (by rw [addrAt, hworld])).after _
      | answered response =>
          dsimp only
          split
          · intro val hval
            cases hval
          · next status leaderHint val hresponse =>
            split
            · next hstatus =>
              -- an answer with status 0 ends the call here
              refine fun _ _ => ⟨k, Nat.le_refl k, by omega, ?_, fun p hp => ?_, c.frame r, rfl⟩
              · exact ⟨response, leaderHint, val, hworld, by rw [hresponse, hstatus]⟩
              · exact ⟨k, Nat.le_refl k, by rw [List.mem_singleton.mp hp]⟩
            · split
              · next hredirect =>
                -- a redirection with a hint goes to the address it names
                refine (hnext (c.draw r) leaderHint ?_).after _
                simp only [addrAt, hworld, hresponse, if_pos hredirect.2]
              · intro val hval
                cases hval

end KvClient

/-! ## Redirected requests -/

section

variable {D : Deployment} {net : D.Network} {first : Bytes} {servers : List Bytes}
  {world : Nat → Exchange}

open KvClient

/-- What is answered at an attempt sends the next one to the same address or to one on
the list of members. -/
theorem Deployment.Network.Answers.hint {addr bytes : Bytes} (h : net.Answers addr bytes)
    {status : UInt8} {leaderHint val : Bytes}
    (hget : getResponse.run' bytes = .ok (status, leaderHint, val)) :
    leaderHint = [] ∨ ∃ p ∈ D.processes, leaderHint = p.member.addr := by
  cases h with
  | client _ _ h =>
      obtain ⟨status', leaderHint', value, rfl, hhint⟩ := h.hint
      -- addresses are short enough to be read back
      have hlength : leaderHint'.length < 2 ^ 32 := by
        rcases hhint with rfl | ⟨p, hp, rfl⟩
        · decide
        · exact net.addr_length p hp
      obtain ⟨_, hget⟩ := get_run'_eq_ok.mp hget
      obtain ⟨_, r₁, hstatus, hget⟩ := get_bind_eq_ok.mp hget
      obtain ⟨hint, r₂, hbytes, hget⟩ := get_bind_eq_ok.mp hget
      obtain ⟨_, r₃, -, hget⟩ := get_bind_eq_ok.mp hget
      cases hget
      cases (Decodes.u8 status' _).symm.trans hstatus
      cases (Decodes.bytes hlength _).symm.trans hbytes
      exact hhint
  -- the port of the peers answers no client
  | peer _ _ h =>
      rw [PeerServer.connLoop_clientRequest] at h
      cases h

omit D net in
theorem addrAt_succ (k : Nat) :
    addrAt servers world first (k + 1) = addrAt servers world first k ∨
      (world k = .unreachable ∧
        addrAt servers world first (k + 1) = servers.getD (k % servers.length) []) ∨
      ∃ bytes status leaderHint val, world k = .answered bytes ∧
        getResponse.run' bytes = .ok (status, leaderHint, val) ∧ leaderHint ≠ [] ∧
        addrAt servers world first (k + 1) = leaderHint := by
  rw [addrAt]
  split
  · next hworld => exact .inr (.inl ⟨hworld, rfl⟩)
  · next bytes hworld =>
    split
    · next status leaderHint val hget =>
      split
      · next hne => exact .inr (.inr ⟨bytes, status, leaderHint, val, hworld, hget, hne, rfl⟩)
      · exact .inl rfl
    · exact .inl rfl
  · exact .inl rfl

/-- Every attempt goes to one of the addresses the client has of its own or to one of the
list of members. -/
theorem addrAt_cases {P : Bytes → Prop} (hfirst : P first)
    (hnext : ∀ k, world k = .unreachable → P (servers.getD (k % servers.length) []))
    (hworld : ∀ k < 5, ∀ bytes, world k = .answered bytes →
      net.Answers (addrAt servers world first k) bytes) {k : Nat} (hk : k < 5) :
    P (addrAt servers world first k) ∨
      ∃ p ∈ D.processes, addrAt servers world first k = p.member.addr := by
  induction k with
  | zero => exact .inl hfirst
  | succ k ih =>
      rcases addrAt_succ k with hsame | ⟨hlost, heq⟩ | ⟨bytes, _, hint, _, hans, hget, hne, heq⟩
      · rw [hsame]
        exact ih (Nat.lt_of_succ_lt hk)
      · rw [heq]
        exact .inl (hnext k hlost)
      · rw [heq]
        exact .inr (((hworld k (Nat.lt_of_succ_lt hk) bytes hans).hint hget).resolve_left hne)

/-- An attempt at an address of the list of members is followed by others there, until a
connection fails. -/
theorem addrAt_stays (hworld : ∀ k < 5, ∀ bytes, world k = .answered bytes →
      net.Answers (addrAt servers world first k) bytes)
    (hconnects : ∀ k, world k ≠ .unreachable) {p : Deployed} (hp : p ∈ D.processes) {i j : Nat}
    (hij : i ≤ j) (hj : j < 5) (hi : addrAt servers world first i = p.member.addr) :
    addrAt servers world first j = p.member.addr := by
  induction hij with
  | refl => exact hi
  | step hij ih =>
      have hbefore := ih (Nat.lt_of_succ_lt hj)
      rcases addrAt_succ _ with hsame | ⟨hlost, -⟩ | ⟨bytes, _, _, _, hans, -⟩
      · rw [Nat.succ_eq_add_one, hsame, hbefore]
      · exact absurd hlost (hconnects _)
      · have hanswers := hworld _ (Nat.lt_of_succ_lt hj) bytes hans
        rw [hbefore] at hanswers
        exact absurd hanswers (net.not_answers_addr hp bytes)

end

open KvClient in
/-- **No request is answered where it was redirected to**: the addresses members know of
each other are those of the peer ports, and nobody answers a client there.  A request
that succeeds was answered by one of the client's own servers; unless a connection could
not be made, that is the first one, and no other has got a frame of it. -/
theorem redirected_unanswered {D : Deployment} (net : D.Network) (c : KvClient) (r : Request)
    {first : Bytes} {rest : List Bytes} {world : Nat → Exchange}
    (hworld : ∀ k < 5, ∀ bytes, world k = .answered bytes →
      net.Answers (addrAt (first :: rest) world first k) bytes) {val : Option Bytes}
    (hok : (c.request (some (first :: rest)) r world).result = .ok (true, val)) :
    (∃ addr ∈ first :: rest, ∃ f,
      (c.request (some (first :: rest)) r world).sent.getLast? = some (addr, f)) ∧
    ((∀ k, world k ≠ .unreachable) →
      ∀ p ∈ (c.request (some (first :: rest)) r world).sent, p.1 = first) := by
  have hends : (attempts (first :: rest) r world 5 c (addrAt (first :: rest) world first 0)).EndsAt
      (addrAt (first :: rest) world first) world 0 := attempts_endsAt rfl c
  obtain ⟨j, -, hj, ⟨bytes, _, _, hans, -⟩, hsent, f, hlast⟩ := hends val hok
  -- the node that answered last is none of those a hint can name
  have hnot : ∀ q ∈ D.processes, addrAt (first :: rest) world first j ≠ q.member.addr := by
    intro q hq heq
    have hanswers := hworld j hj bytes hans
    rw [heq] at hanswers
    exact net.not_answers_addr hq bytes hanswers
  -- addresses come from the list or from a hint, and hints are excluded
  refine ⟨⟨_, ?_, f, hlast⟩, fun hconnects p hp => ?_⟩
  · have hnext : ∀ k, world k = .unreachable →
        (first :: rest).getD (k % (first :: rest).length) [] ∈ first :: rest := by
      intro k _
      have hlt : k % (first :: rest).length < (first :: rest).length :=
        Nat.mod_lt k (Nat.succ_pos _)
      rw [List.getD_eq_getElem?_getD, List.getElem?_eq_getElem hlt]
      exact List.getElem_mem hlt
    refine (addrAt_cases (P := (· ∈ first :: rest)) List.mem_cons_self hnext hworld
      hj).resolve_right ?_
    rintro ⟨q, hq, heq⟩
    exact hnot q hq heq
  · -- without failed connections nobody leaves the first server but for a hint
    obtain ⟨i, hij, hi⟩ := hsent p hp
    rw [hi]
    refine (addrAt_cases (P := (· = first)) rfl (fun k hlost => absurd hlost (hconnects k)) hworld
      (Nat.lt_of_le_of_lt hij hj)).resolve_right ?_
    rintro ⟨q, hq, heq⟩
    exact hnot q hq (addrAt_stays hworld hconnects hq hij hj heq)

/-- The listening sockets of the three processes. -/
def threeListeners : threeProcesses.Network where
  listener a :=
    match threeProcesses.processes.find? fun p => (p.member.host, (p.member.port : Int)) = a with
    | some p => some (.peer p.id)
    | none =>
        (threeProcesses.processes.find? fun p => (p.member.host, (p.clientPort : Int)) = a).map
          fun p => .client p.id
  peers := by decide +kernel
  addr_length := by decide +kernel

/-- Process 1 is elected and writes a value that process 6101 takes over. -/
def writtenThere : Cluster KvStore :=
  replay Cluster.step threeProcesses.setup.start
    [.timeout 1, .deliver 0, .reply 0, .deliver 1, .reply 0,
      .propose 1 (KvCommand.mk .put [107] [118] [] 9 1).encode, .heartbeat 1, .deliver 2, .reply 0]

/-- Where process 6101 serves clients. -/
def followerServer : Bytes := ascii ['n', '2', ':', '7', '1', '0', '1']

/-- Where process 1 does. -/
def leaderServer : Bytes :=
  ascii ['1', '2', '7', '.', '0', '.', '0', '.', '1', ':', '7', '1', '0', '0']

/-- Process 6101 redirects the client, which gets no connection there and comes to
process 1 by its list of servers. -/
def followerFirst : Nat → Exchange
  | 0 => .answered (KvServer.response 2 (KvServer.addrOf (writtenThere.nodes 6101)) [])
  | 1 => .unreachable
  | _ => .answered (KvServer.response 0 [] KvStore.resultOk)

theorem redirected_unanswered_of_followerFirst :
    let q := (KvClient.mk 9 1).request (some [followerServer, leaderServer])
      (KvClient.put [107] [118]) followerFirst
    q.result = .ok (true, some KvStore.resultOk) ∧
      (∃ addr ∈ [followerServer, leaderServer], ∃ f, q.sent.getLast? = some (addr, f)) ∧
      ((∀ k, followerFirst k ≠ .unreachable) → ∀ p ∈ q.sent, p.1 = followerServer) := by
  have hrun : threeProcesses.Reachable writtenThere := run_replay (by decide +kernel)
  have hfollower : threeListeners.listener (ascii ['n', '2'], 7101) = some (.client 6101) := by
    decide +kernel
  have hleader : threeListeners.listener
      (ascii ['1', '2', '7', '.', '0', '.', '0', '.', '1'], 7100) = some (.client 1) := by
    decide +kernel
  have hwritten : KvServer.finishWrite (writtenThere.nodes 1) ⟨true, 1, 2, 1⟩ =
      some (KvServer.response 0 [] KvStore.resultOk) := by decide +kernel
  have hanswers : ∀ addr, addr = leaderServer →
      threeListeners.Answers addr (KvServer.response 0 [] KvStore.resultOk) := by
    rintro addr rfl
    exact .client (by decide +kernel) hleader (.written hrun hwritten)
  have hworld : ∀ k < 5, ∀ bytes, followerFirst k = .answered bytes →
      threeListeners.Answers
        (KvClient.addrAt [followerServer, leaderServer] followerFirst followerServer k) bytes := by
    intro k hk bytes hans
    interval_cases k
    · -- a follower that times out, then a lost connection, then the leader
      cases hans
      exact .client (by decide +kernel) hfollower (.readTimeout hrun)
    · cases hans
    · cases hans
      exact hanswers _ (by decide +kernel)
    · cases hans
      exact hanswers _ (by decide +kernel)
    · cases hans
      exact hanswers _ (by decide +kernel)
  have hok : ((KvClient.mk 9 1).request (some [followerServer, leaderServer])
      (KvClient.put [107] [118]) followerFirst).result = .ok (true, some KvStore.resultOk) := by
    decide +kernel
  exact ⟨hok, redirected_unanswered threeListeners (KvClient.mk 9 1) (KvClient.put [107] [118])
    hworld hok⟩

end KvRaft
