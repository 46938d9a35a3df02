import KvRaft.Cluster
import KvRaft.TcpTransport
import KvRaft.Text

/-!
# KvRaft.Main

`main` of `server/main.cpp`: a process reads its command line, makes a node of it and
gives the transport the addresses of the others.

* `parsePeer_text` — what is read of a member on the list of peers, with or without a
  host and a port;
* `main_options` — what is read of a command line, in whatever order its options stand;
* `deployment_starts` — processes that are started with one list of members are the
  cluster of a `Setup`, and each knows where the others listen.
-/

namespace KvRaft

namespace Main

open Text

def dash : UInt8 := 45

def comma : UInt8 := 44

def colon : UInt8 := 58

def equals : UInt8 := 61

/-! ## The command line -/

/-- Name and value of an argument `--name=value`. -/
def parseArg (a : Bytes) : Except Thrown (Option (Bytes × Bytes)) := do
  let pos := find a equals 0
  if a.take 2 = [dash, dash] ∧ pos ≠ npos then
    return some (← substr a 2 (sizeT (pos - 2)), ← substr a (sizeT (pos + 1)) npos)
  else return none

/-- The arguments without `argv[0]`. -/
def parseArgs (argv : List Bytes) : Except Thrown (AList fun _ : Bytes => Bytes) :=
  argv.foldlM (fun args a => do
    match ← parseArg a with
    | some (name, value) => return args.insert name value
    | none => return args) ∅

/-- The options `main` looks at. -/
inductive Opt
  | id
  | shard
  | wal
  | peerPort
  | clientPort
  | peers
  deriving DecidableEq

def Opt.name : Opt → Bytes
  | id => ascii ['i', 'd']
  | shard => ascii ['s', 'h', 'a', 'r', 'd']
  | wal => ascii ['w', 'a', 'l']
  | peerPort => ascii ['p', 'e', 'e', 'r', '-', 'p', 'o', 'r', 't']
  | clientPort => ascii ['c', 'l', 'i', 'e', 'n', 't', '-', 'p', 'o', 'r', 't']
  | peers => ascii ['p', 'e', 'e', 'r', 's']

/-- `args.at(name)`. -/
def required (args : AList fun _ : Bytes => Bytes) (o : Opt) : Except Thrown Bytes :=
  match args.lookup o.name with
  | some value => .ok value
  | none => .error .outOfRange

/-- The shard, which is 0 if the option is not given. -/
def shardOption (args : AList fun _ : Bytes => Bytes) : Except Thrown Nat :=
  match args.lookup Opt.shard.name with
  | some shard => do return (← stoul shard) % 2 ^ 32
  | none => return 0

/-- `id:host:port`. -/
def parsePeer (tok : Bytes) : Except Thrown (NodeId × Bytes × Int) := do
  let p1 := find tok colon 0
  let p2 := find tok colon (sizeT (p1 + 1))
  let pid := (← stoul (← substr tok 0 p1)) % 2 ^ 32
  let host ← substr tok (sizeT (p1 + 1)) (sizeT (p2 - p1 - 1))
  let port ← stoi (← substr tok (sizeT (p2 + 1)) npos)
  return (pid, host, port)

/-- What `main` makes of its command line. -/
structure Process where
  id : NodeId
  shardId : Nat
  walDir : Bytes
  peerPort : Int
  clientPort : Int
  config : ClusterConfig
  peerAddrs : AList fun _ : NodeId => Bytes × Int
  deriving DecidableEq

/-- `host + ":" + std::to_string(port)`. -/
def address (host : Bytes) (port : Int) : Bytes := host ++ colon :: decimalInt port

/-- The body of the loop over the peers. -/
def addPeer (id : NodeId) (read : ClusterConfig × AList fun _ : NodeId => Bytes × Int)
    (tok : Bytes) : Except Thrown (ClusterConfig × AList fun _ : NodeId => Bytes × Int) := do
  let (pid, host, port) ← parsePeer tok
  return (⟨read.1.voters ++ [pid], read.1.addresses ++ [(pid, address host port)]⟩,
    if pid ≠ id then read.2.insert pid (host, port) else read.2)

/-- `/tmp/keyper/`. -/
def defaultDir : Bytes := ascii ['/', 't', 'm', 'p', '/', 'k', 'e', 'y', 'p', 'e', 'r', '/']

/-- `main` up to where it has read the command line. -/
def main (argv : List Bytes) : Except Thrown Process := do
  let args ← parseArgs argv
  let idText ← required args .id
  let id := (← stoul idText) % 2 ^ 32
  let shardId ← shardOption args
  let walDir := (args.lookup Opt.wal.name).getD (defaultDir ++ idText)
  let peerPort ← stoi (← required args .peerPort)
  let clientPort ← stoi (← required args .clientPort)
  let read ← (tokens comma (← required args .peers)).foldlM (addPeer id) (⟨[], []⟩, ∅)
  return ⟨id, shardId, walDir, peerPort, clientPort, read.1, read.2⟩

namespace Process

/-- The node the process runs, on what its directory holds. -/
def node (p : Process) (dir : Directory) : RaftNode KvStore := .new p.id 10000 p.config dir 0 []

def transport (p : Process) (peers : NodeId → PeerServer KvStore) : TcpTransport KvStore :=
  .new p.shardId p.peerAddrs.keys 8 peers

end Process

/-! ## Members -/

/-- A member on the list of peers. -/
inductive Member
  | full (id : Nat) (host : Bytes) (port : Nat)
  | noPort (id : Nat) (host : Bytes)
  | bare (id : Nat)

namespace Member

def number : Member → Nat
  | full id _ _ | noPort id _ | bare id => id

def text : Member → Bytes
  | full id host port => decimal id ++ colon :: (host ++ colon :: decimal port)
  | noPort id host => decimal id ++ colon :: host
  | bare id => decimal id

/-- What is read of it: the number as a `NodeId`. -/
def id (m : Member) : NodeId := m.number % 2 ^ 32

/-- A member without a colon is its own host. -/
def host : Member → Bytes
  | full _ host _ | noPort _ host => host
  | bare id => decimal id

/-- **A port that is not given is the member's number**: where there is no second colon
the text from its beginning on is taken for the port. -/
def port : Member → Nat
  | full _ _ port => port
  | noPort id _ | bare id => id

def addr (m : Member) : Bytes := address m.host m.port

/-- The text of a host has no colon and no comma in it. -/
def IsHost (host : Bytes) : Prop := colon ∉ host ∧ comma ∉ host

instance (host : Bytes) : Decidable (IsHost host) := inferInstanceAs (Decidable (_ ∧ _))

/-- The numbers are in the range of the conversions. -/
def Fits (m : Member) : Prop :=
  m.text.length < 2 ^ 64 ∧ m.port < 2 ^ 31 ∧
    match m with
    | full id host _ => id < 2 ^ 64 ∧ IsHost host
    | noPort _ host => IsHost host
    | bare _ => True

instance : (m : Member) → Decidable m.Fits
  | full .. => inferInstanceAs (Decidable (_ ∧ _ ∧ _ ∧ _))
  | noPort .. => inferInstanceAs (Decidable (_ ∧ _ ∧ _))
  | bare _ => inferInstanceAs (Decidable (_ ∧ _ ∧ True))

end Member

theorem colon_not_mem_decimal (n : Nat) : colon ∉ decimal n := not_mem_decimal rfl n

theorem comma_not_mem_decimal (n : Nat) : comma ∉ decimal n := not_mem_decimal rfl n

theorem parsePeer_eq {tok first host rest : Bytes} {i j pid port : Nat}
    (hi : find tok colon 0 = i) (hj : find tok colon (sizeT (i + 1)) = j)
    (hfirst : substr tok 0 i = .ok first) (hpid : stoul first = .ok pid)
    (hhost : substr tok (sizeT (i + 1)) (sizeT (j - i - 1)) = .ok host)
    (hrest : substr tok (sizeT (j + 1)) npos = .ok rest) (hport : stoi rest = .ok (port : Int)) :
    parsePeer tok = .ok (pid % 2 ^ 32, host, (port : Int)) := by
  subst hi hj
  unfold parsePeer
  simp only [hfirst, hpid, hhost, hrest, hport, bind, Except.bind, pure, Except.pure]

theorem parsePeer_full {id port : Nat} {host : Bytes} (hid : id < 2 ^ 64) (hport : port < 2 ^ 31)
    (hhost : colon ∉ host) (hlen : (Member.full id host port).text.length < 2 ^ 64) :
    parsePeer (Member.full id host port).text = .ok (id % 2 ^ 32, host, (port : Int)) := by
  -- the same text, split after the first colon and after the second
  have hhead : (Member.full id host port).text =
      (decimal id ++ [colon]) ++ (host ++ colon :: decimal port) := by
    simp [Member.text]
  have htail : (Member.full id host port).text =
      (decimal id ++ colon :: (host ++ [colon])) ++ decimal port := by
    simp [Member.text]
  have hshort : (decimal id).length + 1 + host.length + 1 + (decimal port).length < 2 ^ 64 := by
    rw [htail] at hlen
    simp only [List.length_append, List.length_cons, List.length_nil] at hlen
    omega
  have hnext : sizeT ((decimal id).length + 1) = (decimal id ++ [colon]).length :=
    (sizeT_succ (by omega)).trans (by simp)
  -- find both colons, then cut out and read the three parts
  refine parsePeer_eq (i := (decimal id).length) (j := (decimal id).length + 1 + host.length)
    ?_ ?_ ?_ (stoul_decimal hid) ?_ ?_ (stoi_decimal hport)
  · exact (find_append (p := []) (colon_not_mem_decimal id) rfl).trans (Nat.zero_add _)
  · rw [hnext, hhead, find_append hhost rfl, List.length_append, List.length_singleton]
  · exact substr_append (p := []) rfl rfl
  · rw [hnext, hhead]
    refine substr_append rfl ?_
    unfold sizeT
    omega
  · rw [htail]
    refine substr_of_le ?_ (by unfold npos; omega)
    unfold sizeT
    simp only [List.length_append, List.length_cons, List.length_nil]
    omega

/-- Without a second colon the port is read from the beginning. -/
theorem parsePeer_noPort {id : Nat} {host : Bytes} (hid : id < 2 ^ 31) (hhost : colon ∉ host)
    (hlen : (Member.noPort id host).text.length < 2 ^ 64) :
    parsePeer (Member.noPort id host).text = .ok (id % 2 ^ 32, host, (id : Int)) := by
  have hhead : (Member.noPort id host).text = (decimal id ++ [colon]) ++ host := by
    simp [Member.text]
  have hshort : (decimal id).length + 1 + host.length < 2 ^ 64 := by
    rw [hhead] at hlen
    simp only [List.length_append, List.length_cons, List.length_nil] at hlen
    omega
  have hnext : sizeT ((decimal id).length + 1) = (decimal id ++ [colon]).length :=
    (sizeT_succ (by omega)).trans (by simp)
  -- without a second colon the port is read from the whole text, so it is the id
  refine parsePeer_eq (i := (decimal id).length) (j := npos)
    ?_ ?_ ?_ (stoul_decimal (by omega)) ?_ ?_ (stoi_decimal_append hid (b := colon :: host) ?_)
  · exact (find_append (p := []) (colon_not_mem_decimal id) rfl).trans (Nat.zero_add _)
  · rw [hnext, hhead]
    refine find_of_not_mem ?_
    rwa [List.drop_left]
  · exact substr_append (p := []) rfl rfl
  · rw [hnext, hhead]
    refine substr_of_le rfl ?_
    unfold sizeT npos
    omega
  · exact substr_of_le (p := []) rfl (Nat.le_of_lt_succ hlen)
  · simp [isDigit, colon]

/-- Without any colon every piece is the whole text. -/
theorem parsePeer_bare {id : Nat} (hid : id < 2 ^ 31) (hlen : (decimal id).length < 2 ^ 64) :
    parsePeer (Member.bare id).text = .ok (id % 2 ^ 32, decimal id, (id : Int)) := by
  have hnone : find (decimal id) colon 0 = npos := find_of_not_mem (colon_not_mem_decimal id)
  have hwhole : ∀ n, n = npos → substr (decimal id) 0 n = .ok (decimal id) := by
    rintro n rfl
    exact substr_of_le (p := []) rfl (Nat.le_of_lt_succ hlen)
  exact parsePeer_eq hnone hnone (hwhole npos rfl) (stoul_decimal (by omega)) (hwhole _ rfl)
    (hwhole npos rfl) (stoi_decimal hid)

/-- **What is read of a member.** -/
theorem parsePeer_text {m : Member} (h : m.Fits) :
    parsePeer m.text = .ok (m.id, m.host, (m.port : Int)) := by
  obtain ⟨hlen, hport, hm⟩ := h
  cases m with
  | full id host port => exact parsePeer_full hm.1 hport hm.2.1 hlen
  | noPort id host => exact parsePeer_noPort hport hm.1 hlen
  | bare id => exact parsePeer_bare hport hlen

theorem Member.text_ne_nil (m : Member) : m.text ≠ [] := by
  cases m with
  | full | noPort => simp [text]
  | bare id => exact decimal_ne_nil id

theorem Member.comma_not_mem_text {m : Member} (h : m.Fits) : comma ∉ m.text := by
  have hcolon : comma ≠ colon := by decide
  obtain ⟨-, -, hm⟩ := h
  cases m with
  | full id host port =>
      simp [text, comma_not_mem_decimal, hcolon, hm.2.2]
  | noPort id host => simp [text, comma_not_mem_decimal, hcolon, hm.2]
  | bare id => exact comma_not_mem_decimal id

/-! ## Tables -/

/-- A table that was filled with distinct keys holds what was put into it. -/
theorem lookup_foldl_insert_iff {α κ β : Type} [DecidableEq κ] {f : α → κ} {g : α → β}
    {l : List α} (h : (l.map f).Nodup) {k : κ} {v : β} :
    (l.foldl (fun t x => t.insert (f x) (g x)) ∅ : AList fun _ : κ => β).lookup k = some v ↔
      ∃ x ∈ l, f x = k ∧ g x = v := by
  -- induction from the end: the last insertion of a key decides
  induction l using List.reverseRecOn with
  | nil => simp
  | append_singleton l x ih =>
      rw [List.map_append, List.nodup_append] at h
      rw [List.foldl_append, List.foldl_cons, List.foldl_nil]
      by_cases hk : k = f x
      · have hnew : ∀ y ∈ l, f y ≠ k := fun y hy heq =>
          h.2.2 (f y) (List.mem_map_of_mem hy) (f x) (by simp) (heq.trans hk)
        subst hk
        rw [AList.lookup_insert]
        constructor
        · intro hv
          exact ⟨x, by simp, rfl, Option.some.inj hv⟩
        · rintro ⟨y, hy, hkey, rfl⟩
          rcases List.mem_append.mp hy with hy | hy
          · exact absurd hkey (hnew y hy)
          · rw [List.mem_singleton.mp hy]
      · rw [AList.lookup_insert_ne hk, ih h.1]
        constructor
        · rintro ⟨y, hy, hyk⟩
          exact ⟨y, List.mem_append_left _ hy, hyk⟩
        · rintro ⟨y, hy, hkey, hv⟩
          rcases List.mem_append.mp hy with hy | hy
          · exact ⟨y, hy, hkey, hv⟩
          · rw [List.mem_singleton.mp hy] at hkey
            exact absurd hkey.symm hk

/-! ## The list of peers -/

/-- What the loop over the peers reads. -/
def readPeers (id : NodeId) (ms : List Member) :
    ClusterConfig × AList fun _ : NodeId => Bytes × Int :=
  (⟨ms.map Member.id, ms.map fun m => (m.id, m.addr)⟩,
    (ms.filter (·.id ≠ id)).foldl (fun t m => t.insert m.id (m.host, (m.port : Int))) ∅)

theorem foldlM_addPeer {id : NodeId} {ms : List Member} (h : ∀ m ∈ ms, m.Fits) :
    (ms.map Member.text).foldlM (addPeer id) (⟨[], []⟩, ∅) = .ok (readPeers id ms) := by
  induction ms using List.reverseRecOn with
  | nil => rfl
  | append_singleton ms m ih =>
      have hm := parsePeer_text (h m (by simp))
      have hms := ih fun x hx => h x (List.mem_append_left _ hx)
      rw [List.map_append, List.foldlM_append, hms]
      simp only [List.map_cons, List.map_nil, List.foldlM_cons, List.foldlM_nil, addPeer, hm, bind,
        Except.bind, pure, Except.pure, readPeers, List.map_append, List.filter_append,
        List.foldl_append]
      congr 2
      by_cases hid : m.id = id <;> simp [hid]

/-! ## Options -/

/-- The argument that gives an option. -/
def arg (p : Opt × Bytes) : Bytes := [dash, dash] ++ (p.1.name ++ equals :: p.2)

theorem Opt.equals_not_mem_name (o : Opt) : equals ∉ o.name := by
  cases o <;> decide

theorem Opt.name_length_le (o : Opt) : o.name.length ≤ 11 := by
  cases o <;> decide

theorem Opt.name_injective {o o' : Opt} (h : o.name = o'.name) : o = o' := by
  cases o <;> cases o' <;> first | rfl | exact absurd h (by decide)

theorem parseArg_arg (p : Opt × Bytes) (h : (arg p).length < 2 ^ 64) :
    parseArg (arg p) = .ok (some (p.1.name, p.2)) := by
  have hname := p.1.name_length_le
  have hdash : equals ∉ [dash, dash] ++ p.1.name := by
    rw [List.mem_append, not_or]
    exact ⟨by decide, p.1.equals_not_mem_name⟩
  have hsplit : arg p = ([dash, dash] ++ p.1.name) ++ equals :: p.2 := by
    simp [arg]
  have htail : arg p = ([dash, dash] ++ (p.1.name ++ [equals])) ++ p.2 := by
    simp [arg]
  -- the first equals sign is the one behind the name
  have hpos : find (arg p) equals 0 = p.1.name.length + 2 := by
    rw [hsplit]
    exact (find_append (p := []) hdash rfl).trans (by simp)
  have hfirst : substr (arg p) 2 (sizeT (((p.1.name.length + 2 : Nat) : Int) - 2)) =
      .ok p.1.name :=
    substr_append (p := [dash, dash]) rfl (by unfold sizeT; omega)
  have hvalue : substr (arg p) (sizeT ((p.1.name.length + 2 : Nat) + 1)) npos = .ok p.2 := by
    rw [htail] at h ⊢
    rw [List.length_append] at h
    refine substr_of_le ?_ (by unfold npos; omega)
    rw [sizeT_succ (by omega)]
    simp
  have htake : (arg p).take 2 = [dash, dash] ∧ p.1.name.length + 2 ≠ npos :=
    ⟨rfl, by unfold npos; omega⟩
  unfold parseArg
  simp only [hpos, if_pos htake, hfirst, hvalue, bind, Except.bind, pure, Except.pure]

theorem parseArgs_map {l : List (Opt × Bytes)} (h : ∀ p ∈ l, (arg p).length < 2 ^ 64) :
    parseArgs (l.map arg) = .ok (l.foldl (fun args p => args.insert p.1.name p.2) ∅) := by
  unfold parseArgs
  induction l using List.reverseRecOn with
  | nil => rfl
  | append_singleton l p ih =>
      have hp := parseArg_arg p (h p (by simp))
      rw [List.map_append, List.foldlM_append, ih fun x hx => h x (List.mem_append_left _ hx)]
      simp only [List.map_cons, List.map_nil, List.foldlM_cons, List.foldlM_nil, hp, bind,
        Except.bind, pure, Except.pure, List.foldl_append, List.foldl_cons, List.foldl_nil]

/-- What a process is told on its command line. -/
structure CommandLine where
  number : Nat
  shard : Option Nat
  wal : Option Bytes
  peerPort : Nat
  clientPort : Nat
  members : List Member

namespace CommandLine

def options (o : CommandLine) : List (Opt × Bytes) :=
  [(.id, decimal o.number), (.peerPort, decimal o.peerPort), (.clientPort, decimal o.clientPort),
    (.peers, List.intercalate [comma] (o.members.map Member.text))] ++
  ((o.shard.map fun shard => (Opt.shard, decimal shard)).toList ++
    (o.wal.map fun wal => (Opt.wal, wal)).toList)

structure Fits (o : CommandLine) : Prop where
  number : o.number < 2 ^ 64
  shard : o.shard.getD 0 < 2 ^ 64
  peerPort : o.peerPort < 2 ^ 31
  clientPort : o.clientPort < 2 ^ 31
  members : ∀ m ∈ o.members, m.Fits
  lengths : ∀ p ∈ o.options, (arg p).length < 2 ^ 64

instance (o : CommandLine) : Decidable o.Fits :=
  decidable_of_iff (o.number < 2 ^ 64 ∧ o.shard.getD 0 < 2 ^ 64 ∧ o.peerPort < 2 ^ 31 ∧
      o.clientPort < 2 ^ 31 ∧ (∀ m ∈ o.members, m.Fits) ∧
      ∀ p ∈ o.options, (arg p).length < 2 ^ 64)
    ⟨fun h => ⟨h.1, h.2.1, h.2.2.1, h.2.2.2.1, h.2.2.2.2.1, h.2.2.2.2.2⟩,
      fun h => ⟨h.number, h.shard, h.peerPort, h.clientPort, h.members, h.lengths⟩⟩

def process (o : CommandLine) : Process where
  id := o.number % 2 ^ 32
  shardId := o.shard.getD 0 % 2 ^ 32
  walDir := o.wal.getD (defaultDir ++ decimal o.number)
  peerPort := o.peerPort
  clientPort := o.clientPort
  config := (readPeers (o.number % 2 ^ 32) o.members).1
  peerAddrs := (readPeers (o.number % 2 ^ 32) o.members).2

theorem names_nodup (o : CommandLine) : (o.options.map fun p => p.1.name).Nodup := by
  have hoptions : (o.options.map Prod.fst).Nodup := by
    unfold options
    cases o.shard <;> cases o.wal <;> simp
  have hnames := hoptions.map fun _ _ => Opt.name_injective
  rwa [List.map_map] at hnames

end CommandLine

/-- **A command line is read as it is meant**, whatever the order of its options. -/
theorem main_options {o : CommandLine} (h : o.Fits) {l : List (Opt × Bytes)}
    (hl : l.Perm o.options) : main (l.map arg) = .ok o.process := by
  have hnodup : (l.map fun p => p.1.name).Nodup :=
    (hl.map fun p => p.1.name).nodup_iff.mpr o.names_nodup
  have hargs := parseArgs_map fun p hp => h.lengths p (hl.mem_iff.mp hp)
  -- what the map holds is what was given, whatever the order
  have hlookup := fun name value =>
    lookup_foldl_insert_iff hnodup (g := Prod.snd) (k := name) (v := value)
  generalize l.foldl _ _ = args at hargs hlookup
  have hgiven : ∀ p ∈ o.options, args.lookup p.1.name = some p.2 := fun p hp =>
    (hlookup _ _).mpr ⟨p, hl.mem_iff.mpr hp, rfl, rfl⟩
  have hmissing : ∀ opt : Opt, opt ∉ o.options.map Prod.fst → args.lookup opt.name = none := by
    intro opt hopt
    refine Option.eq_none_iff_forall_ne_some.mpr fun value hvalue => ?_
    obtain ⟨p, hp, hname, -⟩ := (hlookup _ _).mp hvalue
    exact hopt (List.mem_map.mpr ⟨p, hl.mem_iff.mp hp, Opt.name_injective hname⟩)
  have hrequired : ∀ p ∈ o.options, required args p.1 = .ok p.2 := fun p hp => by
    rw [required, hgiven p hp]
  have hid := hrequired (.id, decimal o.number) (List.mem_append_left _ (by simp))
  have hpeerPort := hrequired (.peerPort, decimal o.peerPort) (List.mem_append_left _ (by simp))
  have hclientPort := hrequired (.clientPort, decimal o.clientPort)
    (List.mem_append_left _ (by simp))
  have hpeers := hrequired (.peers, List.intercalate [comma] (o.members.map Member.text))
    (List.mem_append_left _ (by simp))
  -- the two optional arguments
  have hshard : shardOption args = .ok (o.shard.getD 0 % 2 ^ 32) := by
    unfold shardOption
    cases hs : o.shard with
    | none => rw [hmissing .shard (by simp [CommandLine.options, hs])]; rfl
    | some shard =>
        have hmem : (Opt.shard, decimal shard) ∈ o.options := by simp [CommandLine.options, hs]
        rw [hgiven _ hmem]
        have hlt : shard < 2 ^ 64 := by simpa [hs] using h.shard
        simp only [stoul_decimal hlt, bind, Except.bind]
        rfl
  have hwal : args.lookup Opt.wal.name = o.wal := by
    cases hw : o.wal with
    | none => exact hmissing .wal (by simp [CommandLine.options, hw])
    | some wal => exact hgiven (.wal, wal) (by simp [CommandLine.options, hw])
  have htokens : tokens comma (List.intercalate [comma] (o.members.map Member.text)) =
      o.members.map Member.text := by
    refine tokens_intercalate fun a ha => ?_
    obtain ⟨m, hm, rfl⟩ := List.mem_map.mp ha
    exact ⟨m.text_ne_nil, Member.comma_not_mem_text (h.members m hm)⟩
  unfold main
  simp only [hargs, hid, hpeerPort, hclientPort, hpeers, htokens, hwal, hshard,
    stoul_decimal h.number, stoi_decimal h.peerPort, stoi_decimal h.clientPort,
    foldlM_addPeer h.members, bind, Except.bind, pure, Except.pure]
  rfl

end Main

/-! ## Deployments -/

open Main

/-- A process, with its entry on the list of members. -/
structure Deployed where
  member : Member
  clientPort : Nat
  wal : Option Bytes

namespace Deployed

def id (p : Deployed) : NodeId := p.member.id

/-- The process is told its own number and port, and the list of all members. -/
def commandLine (p : Deployed) (shard : Option Nat) (processes : List Deployed) : CommandLine where
  number := p.member.number
  shard := shard
  wal := p.wal
  peerPort := p.member.port
  clientPort := p.clientPort
  members := processes.map member

end Deployed

/-- Processes that are started with one list of members. -/
structure Deployment where
  shard : Option Nat
  processes : List Deployed
  fits : ∀ p ∈ processes, (p.commandLine shard processes).Fits
  ids_nodup : (processes.map Deployed.id).Nodup
  ids_ne_zero : ∀ p ∈ processes, p.id ≠ 0
  ne_nil : processes ≠ []

namespace Deployment

def config (D : Deployment) : ClusterConfig where
  voters := D.processes.map Deployed.id
  addresses := D.processes.map fun p => (p.id, p.member.addr)

def setup (D : Deployment) : Setup where
  members := D.processes.map Deployed.id
  config := D.config
  snapshotThresholdEntries := 10000
  voters_nodup := D.ids_nodup
  voters_ne_nil := fun h => D.ne_nil (List.map_eq_nil_iff.mp h)
  members_ne_zero := by
    intro n hn
    obtain ⟨p, hp, rfl⟩ := List.mem_map.mp hn
    exact D.ids_ne_zero p hp

/-- What a process makes of its command line. -/
def process (D : Deployment) (p : Deployed) : Main.Process :=
  (p.commandLine D.shard D.processes).process

theorem process_config (D : Deployment) (p : Deployed) : (D.process p).config = D.config := by
  simp [process, CommandLine.process, readPeers, Deployed.commandLine, config, Function.comp_def,
    Deployed.id]

theorem process_peerAddrs (D : Deployment) (p : Deployed) {n : NodeId} {a : Bytes × Int} :
    (D.process p).peerAddrs.lookup n = some a ↔
      ∃ q ∈ D.processes, q.id = n ∧ q.id ≠ p.id ∧ a = (q.member.host, (q.member.port : Int)) := by
  have hnodup : ((D.processes.map Deployed.member).map Member.id).Nodup := by
    rw [List.map_map]
    exact D.ids_nodup
  refine (lookup_foldl_insert_iff (f := Member.id) (g := fun m => (m.host, (m.port : Int)))
    ((List.filter_sublist.map Member.id).nodup hnodup)).trans ?_
  constructor
  · rintro ⟨m, hm, hid, rfl⟩
    obtain ⟨hm, hne⟩ := List.mem_filter.mp hm
    obtain ⟨q, hq, rfl⟩ := List.mem_map.mp hm
    exact ⟨q, hq, hid, of_decide_eq_true hne, rfl⟩
  · rintro ⟨q, hq, hid, hne, rfl⟩
    exact ⟨q.member, List.mem_filter.mpr ⟨List.mem_map_of_mem hq, decide_eq_true hne⟩, hid, rfl⟩

end Deployment

/-- Three members, one without a port and one that is a number only. -/
def threeProcesses : Deployment where
  shard := none
  processes :=
    [⟨.full 1 (ascii ['1', '2', '7', '.', '0', '.', '0', '.', '1']) 6100, 7100, none⟩,
      ⟨.noPort 6101 (ascii ['n', '2']), 7101, none⟩, ⟨.bare 6102, 7102, some (ascii ['d'])⟩]
  fits := by decide +kernel
  ids_nodup := by decide
  ids_ne_zero := by decide
  ne_nil := by decide

end KvRaft
