import KvRaft.KvStore
import KvRaft.Successor
import Mathlib.Data.List.Induction

/-!
# KvRaft.HashRing

The consistent-hashing ring of `shard/hash_ring.h`: every shard has `vnodes`
points on the ring of 64-bit hashes, and a key belongs to the shard of the first
point at or after its hash, or of the first point of all if there is none.

`getElem?_run` describes the ring after any sequence of calls: it has the points
of the shards that are present and no others, as long as no two points fall
together.  So `shardFor` depends on the set of shards alone
(`routing_of_shards`).

`shardFor` is a lookup of the successor (`shardFor_eq_successor`), which new points
draw to their own shard only and which the removal of other points leaves alone: a
change of the shards moves no key that it need not (`minimal_remapping`).
-/

namespace KvRaft

structure HashRing where
  vnodes : Int
  /-- ring position and shard id -/
  ring : Std.ExtTreeMap UInt64 Nat
  shards : List Nat

namespace HashRing

def new (vnodes : Int) : HashRing := ⟨vnodes, ∅, []⟩

/-- FNV-1a, 64 bits. -/
def hash (s : Bytes) : UInt64 :=
  s.foldl (fun h c => (h ^^^ c.toUInt64) * 1099511628211) 1469598103934665603

/-- `std::to_string(shardId) + "#" + std::to_string(v)`. -/
def label (shardId v : Nat) : Bytes :=
  ascii (Nat.toDigits 10 shardId) ++ (ascii ['#'] ++ ascii (Nat.toDigits 10 v))

/-- The position of a shard's `v`-th point. -/
def point (shardId v : Nat) : UInt64 := hash (label shardId v)

def addShard (r : HashRing) (shardId : Nat) : HashRing :=
  { r with
    ring := (List.range r.vnodes.toNat).foldl (fun ring v => ring.insert (point shardId v) shardId)
      r.ring
    shards := r.shards ++ [shardId] }

def removeShard (r : HashRing) (shardId : Nat) : HashRing :=
  { r with
    ring := (List.range r.vnodes.toNat).foldl (fun ring v => ring.erase (point shardId v)) r.ring
    shards := r.shards.filter (· ≠ shardId) }

def shardFor (r : HashRing) (key : Bytes) : Nat :=
  if r.ring.isEmpty then 0
  else match r.ring.getEntryGE? (hash key) with
    | some e => e.2
    | none => (r.ring.minEntry?.map Prod.snd).getD 0

/-! ## Sequences of calls -/

inductive Call
  | addShard (shardId : Nat)
  | removeShard (shardId : Nat)

/-- The shard a call is about. -/
def Call.shardId : Call → Nat
  | addShard shardId | removeShard shardId => shardId

def call (r : HashRing) : Call → HashRing
  | .addShard shardId => r.addShard shardId
  | .removeShard shardId => r.removeShard shardId

/-- A new ring after calls. -/
def run (vnodes : Int) (calls : List Call) : HashRing := calls.foldl call (new vnodes)

theorem run_concat (vnodes : Int) (calls : List Call) (c : Call) :
    run vnodes (calls ++ [c]) = (run vnodes calls).call c := by
  rw [run, List.foldl_append]
  rfl

theorem call_vnodes (r : HashRing) (c : Call) : (r.call c).vnodes = r.vnodes := by
  cases c <;> rfl

theorem run_vnodes (vnodes : Int) (calls : List Call) : (run vnodes calls).vnodes = vnodes := by
  induction calls using List.reverseRecOn with
  | nil => rfl
  | append_singleton calls c ih => rw [run_concat, call_vnodes, ih]

/-- The points of a shard. -/
def points (vnodes : Int) (shardId : Nat) : List UInt64 :=
  (List.range vnodes.toNat).map (point shardId)

/-- A loop that sets or erases points one by one. -/
theorem getElem?_foldl (set : Std.ExtTreeMap UInt64 Nat → UInt64 → Std.ExtTreeMap UInt64 Nat)
    (x : Option Nat)
    (hset : ∀ ring k (h : UInt64), (set ring k)[h]? = if k = h then x else ring[h]?)
    (ring : Std.ExtTreeMap UInt64 Nat) (ps : List UInt64) (h : UInt64) :
    (ps.foldl set ring)[h]? = if h ∈ ps then x else ring[h]? := by
  induction ps generalizing ring with
  | nil => simp
  | cons p ps ih =>
      rw [List.foldl_cons, ih, hset]
      by_cases hmem : h ∈ ps
      · rw [if_pos hmem, if_pos (List.mem_cons_of_mem p hmem)]
      · by_cases hp : p = h
        · rw [if_neg hmem, if_pos hp, if_pos (hp ▸ List.mem_cons_self)]
        · rw [if_neg hmem, if_neg hp, if_neg]
          simp [hmem, Ne.symm hp]

theorem getElem?_addShard (r : HashRing) (shardId : Nat) (h : UInt64) :
    (r.addShard shardId).ring[h]? =
      if h ∈ points r.vnodes shardId then some shardId else r.ring[h]? := by
  have hfold := getElem?_foldl (fun ring k => ring.insert k shardId) (some shardId)
    (fun ring k h => by simp [Std.ExtTreeMap.getElem?_insert]) r.ring (points r.vnodes shardId) h
  rwa [points, List.foldl_map] at hfold

theorem getElem?_removeShard (r : HashRing) (shardId : Nat) (h : UInt64) :
    (r.removeShard shardId).ring[h]? =
      if h ∈ points r.vnodes shardId then none else r.ring[h]? := by
  have hfold := getElem?_foldl (fun ring k => ring.erase k) none
    (fun ring k h => by simp [Std.ExtTreeMap.getElem?_erase]) r.ring (points r.vnodes shardId) h
  rwa [points, List.foldl_map] at hfold

/-- No two points of the shards in `ids` fall together. -/
def DistinctPoints (vnodes : Int) (ids : List Nat) : Prop :=
  ∀ s ∈ ids, ∀ s' ∈ ids, ∀ v < vnodes.toNat, ∀ v' < vnodes.toNat,
    point s v = point s' v' → s = s' ∧ v = v'

theorem DistinctPoints.eq_of_mem {vnodes : Int} {ids : List Nat} (hd : DistinctPoints vnodes ids)
    {s s' : Nat} (hs : s ∈ ids) (hs' : s' ∈ ids) {h : UInt64} (hp : h ∈ points vnodes s)
    (hp' : h ∈ points vnodes s') : s = s' := by
  obtain ⟨v, hv, rfl⟩ := List.mem_map.mp hp
  obtain ⟨v', hv', heq⟩ := List.mem_map.mp hp'
  exact (hd s hs s' hs' v (List.mem_range.mp hv) v' (List.mem_range.mp hv') heq.symm).1

/-- **The ring after any calls** has the points of the shards that are present,
and these were all added. -/
theorem getElem?_run {vnodes : Int} {calls : List Call} {ids : List Nat}
    (hids : ∀ c ∈ calls, c.shardId ∈ ids) (hdistinct : DistinctPoints vnodes ids) :
    (∀ s ∈ (run vnodes calls).shards, s ∈ ids) ∧
      ∀ (h : UInt64) (s : Nat), (run vnodes calls).ring[h]? = some s ↔
        s ∈ (run vnodes calls).shards ∧ h ∈ points vnodes s := by
  -- induction on the calls, the last one first
  induction calls using List.reverseRecOn with
  | nil => simp [run, new]
  | append_singleton calls c ih =>
      obtain ⟨hsub, hring⟩ := ih fun c hc => hids c (List.mem_append_left _ hc)
      have hid := hids c (List.mem_append_right _ List.mem_cons_self)
      have hvnodes := run_vnodes vnodes calls
      rw [run_concat]
      cases c with
      | addShard shardId =>
          have hsub' : ∀ s ∈ (run vnodes calls).shards ++ [shardId], s ∈ ids := fun s hs =>
            (List.mem_append.mp hs).elim (hsub s) fun hs => List.mem_singleton.mp hs ▸ hid
          refine ⟨hsub', fun h s => ?_⟩
          change ((run vnodes calls).addShard shardId).ring[h]? = some s ↔
            s ∈ (run vnodes calls).shards ++ [shardId] ∧ h ∈ points vnodes s
          rw [getElem?_addShard, hvnodes]
          -- a point of the new shard is its own
          by_cases hp : h ∈ points vnodes shardId
          · rw [if_pos hp, Option.some.injEq]
            constructor
            · rintro rfl
              exact ⟨by simp, hp⟩
            · rintro ⟨hs, hps⟩
              exact hdistinct.eq_of_mem hid (hsub' s hs) hp hps
          · -- other points are where they were
            rw [if_neg hp, hring]
            refine and_congr_left fun hps => ?_
            have hne : s ≠ shardId := fun heq => hp (heq ▸ hps)
            simp [hne]
      | removeShard shardId =>
          refine ⟨fun s hs => hsub s (List.mem_filter.mp hs).1, fun h s => ?_⟩
          change ((run vnodes calls).removeShard shardId).ring[h]? = some s ↔
            s ∈ (run vnodes calls).shards.filter (· ≠ shardId) ∧ h ∈ points vnodes s
          rw [getElem?_removeShard, hvnodes, List.mem_filter, decide_eq_true_eq]
          -- a point of the removed shard was nobody else's
          by_cases hp : h ∈ points vnodes shardId
          · rw [if_pos hp]
            refine iff_of_false nofun fun ⟨⟨hs, hne⟩, hps⟩ => hne ?_
            exact hdistinct.eq_of_mem (hsub s hs) hid hps hp
          · rw [if_neg hp, hring]
            refine and_congr_left fun hps => ?_
            have hne : s ≠ shardId := fun heq => hp (heq ▸ hps)
            simp [hne]

theorem shardFor_congr {r r' : HashRing} (h : ∀ k : UInt64, r.ring[k]? = r'.ring[k]?)
    (key : Bytes) : r.shardFor key = r'.shardFor key := by
  rw [shardFor, shardFor, Std.ExtTreeMap.ext_getElem? h]

/-! ## Remapping -/

theorem shardFor_eq_successor (r : HashRing) (key : Bytes) :
    r.shardFor key = ((successor r.ring (hash key)).map Prod.snd).getD 0 := by
  unfold shardFor
  split
  · next hempty => simp [Std.ExtTreeMap.isEmpty_iff.mp hempty]
  · unfold successor
    cases r.ring.getEntryGE? (hash key) with
    | some e => rfl
    | none => rfl

/-- Every point of the ring is one of a shard that is present, and routes to it. -/
structure Owned (r : HashRing) : Prop where
  mem : ∀ (h : UInt64) (s : Nat), r.ring[h]? = some s → s ∈ r.shards
  point : ∀ (h : UInt64) (s : Nat), r.ring[h]? = some s → h ∈ points r.vnodes s

theorem Owned.addShard {r : HashRing} (h : r.Owned) (shardId : Nat) :
    (r.addShard shardId).Owned := by
  have hcases (q : UInt64) (s : Nat) (hq : (r.addShard shardId).ring[q]? = some s) :
      s = shardId ∧ q ∈ points r.vnodes s ∨ r.ring[q]? = some s := by
    rw [getElem?_addShard] at hq
    split at hq
    · next hp =>
        cases hq
        exact .inl ⟨rfl, hp⟩
    · exact .inr hq
  refine ⟨fun q s hq => List.mem_append.mpr ?_, fun q s hq => ?_⟩
  · rcases hcases q s hq with ⟨rfl, -⟩ | hq
    · exact .inr List.mem_cons_self
    · exact .inl (h.mem q s hq)
  · rcases hcases q s hq with ⟨-, hp⟩ | hq
    · exact hp
    · exact h.point q s hq

theorem Owned.removeShard {r : HashRing} (h : r.Owned) (shardId : Nat) :
    (r.removeShard shardId).Owned := by
  have hcases (q : UInt64) (s : Nat) (hq : (r.removeShard shardId).ring[q]? = some s) :
      q ∉ points r.vnodes shardId ∧ r.ring[q]? = some s := by
    rw [getElem?_removeShard] at hq
    split at hq
    · cases hq
    · next hp => exact ⟨hp, hq⟩
  refine ⟨fun q s hq => ?_, fun q s hq => h.point q s (hcases q s hq).2⟩
  -- a point of the shard itself would have been erased
  obtain ⟨hp, hq⟩ := hcases q s hq
  have hne : s ≠ shardId := fun heq => hp (heq ▸ h.point q s hq)
  exact List.mem_filter.mpr ⟨h.mem q s hq, decide_eq_true hne⟩

theorem owned_run (vnodes : Int) (calls : List Call) : (run vnodes calls).Owned := by
  induction calls using List.reverseRecOn with
  | nil => constructor <;> simp [run, new]
  | append_singleton calls c ih =>
      rw [run_concat]
      cases c with
      | addShard shardId => exact ih.addShard shardId
      | removeShard shardId => exact ih.removeShard shardId

/-- A point of `shardId` that is on the ring routes to it, if no two points fall
together. -/
theorem Owned.eq_of_point {r : HashRing} (h : r.Owned) {shardId : Nat}
    (hdistinct : DistinctPoints r.vnodes (shardId :: r.shards)) {q : UInt64} {s : Nat}
    (hq : r.ring[q]? = some s) (hp : q ∈ points r.vnodes shardId) : s = shardId :=
  hdistinct.eq_of_mem (List.mem_cons_of_mem _ (h.mem q s hq)) List.mem_cons_self
    (h.point q s hq) hp

theorem shardFor_addShard (r : HashRing) (shardId : Nat) (key : Bytes) :
    (r.addShard shardId).shardFor key = r.shardFor key ∨
      (r.addShard shardId).shardFor key = shardId := by
  rw [shardFor_eq_successor, shardFor_eq_successor]
  rcases successor_of_insert (getElem?_addShard r shardId) (hash key) with hold | hnew
  · exact .inl (by rw [hold])
  · exact .inr (by rw [hnew, Option.getD_some])

theorem Owned.shardFor_removeShard {r : HashRing} (h : r.Owned) {shardId : Nat}
    (hdistinct : DistinctPoints r.vnodes (shardId :: r.shards)) {key : Bytes}
    (hother : r.shardFor key ≠ shardId) :
    (r.removeShard shardId).shardFor key = r.shardFor key := by
  rw [shardFor_eq_successor] at hother ⊢
  rw [successor_of_erase (getElem?_removeShard r shardId), ← shardFor_eq_successor]
  intro e he hp
  have hmem := (successor_eq_some_iff.mp he).mem
  rw [he] at hother
  exact hother (h.eq_of_point hdistinct hmem hp)

theorem Owned.shardFor_addShard_removeShard {r : HashRing} (h : r.Owned) {shardId : Nat}
    (hdistinct : DistinctPoints r.vnodes (shardId :: r.shards)) (hnew : shardId ∉ r.shards)
    (key : Bytes) : ((r.addShard shardId).removeShard shardId).shardFor key = r.shardFor key := by
  refine shardFor_congr (fun q => ?_) key
  rw [getElem?_removeShard, getElem?_addShard]
  change (if q ∈ points r.vnodes shardId then none
    else if q ∈ points r.vnodes shardId then some shardId else r.ring[q]?) = r.ring[q]?
  by_cases hp : q ∈ points r.vnodes shardId
  · -- no point of a shard that is not present was on the ring
    rw [if_pos hp]
    refine (Option.eq_none_iff_forall_not_mem.mpr fun s hs => hnew ?_).symm
    exact h.eq_of_point hdistinct hs hp ▸ h.mem q s hs
  · rw [if_neg hp, if_neg hp]

end HashRing

/-- **Routing depends on the set of shards alone.** -/
theorem routing_of_shards {vnodes : Int} {calls calls' : List HashRing.Call}
    (hdistinct : HashRing.DistinctPoints vnodes ((calls ++ calls').map HashRing.Call.shardId))
    (hsame : ∀ s, s ∈ (HashRing.run vnodes calls).shards ↔
      s ∈ (HashRing.run vnodes calls').shards) (key : Bytes) :
    (HashRing.run vnodes calls).shardFor key = (HashRing.run vnodes calls').shardFor key := by
  have hids : ∀ c ∈ calls, c.shardId ∈ (calls ++ calls').map HashRing.Call.shardId :=
    fun c hc => List.mem_map_of_mem (List.mem_append_left _ hc)
  have hids' : ∀ c ∈ calls', c.shardId ∈ (calls ++ calls').map HashRing.Call.shardId :=
    fun c hc => List.mem_map_of_mem (List.mem_append_right _ hc)
  refine HashRing.shardFor_congr (fun k => Option.ext fun s => ?_) key
  rw [(HashRing.getElem?_run hids hdistinct).2, (HashRing.getElem?_run hids' hdistinct).2, hsame]

/-- Two shards of two points each, added in either order; in one history a third
one comes and goes. -/
theorem routing_of_shards_of_reordered :
    (HashRing.run 2 [.addShard 1, .addShard 3, .addShard 2, .removeShard 3]).shards = [1, 2] ∧
      (HashRing.run 2 [.addShard 1, .addShard 3, .addShard 2, .removeShard 3]).shardFor [107] =
        (HashRing.run 2 [.addShard 2, .addShard 1]).shardFor [107] := by
  refine ⟨by decide +kernel,
    routing_of_shards (by unfold HashRing.DistinctPoints; decide +kernel) (fun s => ?_) [107]⟩
  simp [HashRing.run, HashRing.call, HashRing.addShard, HashRing.removeShard, HashRing.new, or_comm]

/-- **A change of the shards moves no key that it need not**: a new shard takes
keys to itself only.  Where the points of a shard and of all that are present are
distinct, its removal moves none but its own keys, and if it has just been added
all of them are back where they were. -/
theorem minimal_remapping (vnodes : Int) (calls : List HashRing.Call) (shardId : Nat)
    (key : Bytes) :
    (∀ r : HashRing, shardId ∉ r.shards →
        (r.addShard shardId).shardFor key = r.shardFor key ∨
          (r.addShard shardId).shardFor key = shardId) ∧
      let r := HashRing.run vnodes calls
      HashRing.DistinctPoints vnodes (shardId :: r.shards) →
        (shardId ∈ r.shards → r.shardFor key ≠ shardId →
          (r.removeShard shardId).shardFor key = r.shardFor key) ∧
        (shardId ∉ r.shards →
          ((r.addShard shardId).removeShard shardId).shardFor key = r.shardFor key) := by
  refine ⟨fun r _ => r.shardFor_addShard shardId key, ?_⟩
  intro r hdistinct
  have howned : r.Owned := HashRing.owned_run vnodes calls
  rw [← HashRing.run_vnodes vnodes calls] at hdistinct
  exact ⟨fun _ hother => howned.shardFor_removeShard hdistinct hother,
    fun hnew => howned.shardFor_addShard_removeShard hdistinct hnew key⟩

/-- Of two shards of two points each, the one that does not hold a key leaves; a
third one comes and goes. -/
theorem minimal_remapping_of_two :
    let r := HashRing.run 2 [.addShard 1, .addShard 2]
    r.shards = [1, 2] ∧
      ((r.addShard 3).shardFor [107] = r.shardFor [107] ∨ (r.addShard 3).shardFor [107] = 3) ∧
      (∃ s ∈ r.shards, r.shardFor [107] ≠ s ∧
        (r.removeShard s).shardFor [107] = r.shardFor [107]) ∧
      ((r.addShard 3).removeShard 3).shardFor [107] = r.shardFor [107] := by
  intro r
  have hdistinct (s : Nat) (hs : s ∈ [1, 2, 3]) : HashRing.DistinctPoints 2 [s, 1, 2] := by
    have hall : HashRing.DistinctPoints 2 [1, 2, 3] := by
      unfold HashRing.DistinctPoints
      decide +kernel
    have hsub : ∀ x ∈ [s, 1, 2], x ∈ [1, 2, 3] := by simpa using hs
    exact fun x hx y hy => hall x (hsub x hx) y (hsub y hy)
  have hmoves (s : Nat) := minimal_remapping 2 [.addShard 1, .addShard 2] s [107]
  have hstays (s : Nat) (hs : s ∈ [1, 2]) (hother : r.shardFor [107] ≠ s) :
      ∃ s ∈ r.shards, r.shardFor [107] ≠ s ∧
        (r.removeShard s).shardFor [107] = r.shardFor [107] :=
    ⟨s, hs, hother, ((hmoves s).2 (hdistinct s (List.mem_append_left [3] hs))).1 hs hother⟩
  refine ⟨rfl, (hmoves 3).1 r (by decide), ?_,
    ((hmoves 3).2 (hdistinct 3 (by decide))).2 (by decide)⟩
  -- whichever shard has the key, the other one can go
  by_cases hfirst : r.shardFor [107] = 1
  · exact hstays 2 (by decide) (by rw [hfirst]; decide)
  · exact hstays 1 (by decide) hfirst

end KvRaft
