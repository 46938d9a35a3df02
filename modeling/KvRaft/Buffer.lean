import Mathlib.Data.Nat.ModEq
import Mathlib.Tactic.Ring

/-!
# KvRaft.Buffer

The binary buffers of `util/buffer.h`: a `Writer` is the bytes it has written,
a `Reader` a parser over the bytes it has not read yet.  Integers are
little-endian and of fixed width, byte strings carry a 32-bit length.

Readers throw one exception, `buffer underrun`.  `Decodes` says that a parser
reads a value from exactly the given bytes, whatever follows them, and
`Decodes.bind` chains such facts along a parser.
-/

namespace KvRaft

/-- Contents of a `std::string` or of a buffer. -/
abbrev Bytes := List UInt8

/-! ## Writing -/

/-- The `w` little-endian bytes of `v`; what does not fit is cut off. -/
def putLE : Nat → Nat → Bytes
  | 0, _ => []
  | w + 1, v => UInt8.ofNat v :: putLE w (v / 256)

def putU8 (v : UInt8) : Bytes := [v]

def putU32 (v : Nat) : Bytes := putLE 4 v

def putU64 (v : Nat) : Bytes := putLE 8 v

def putBool (v : Bool) : Bytes := putU8 (if v then 1 else 0)

def putBytes (s : Bytes) : Bytes := putU32 s.length ++ s

theorem length_putLE (w v : Nat) : (putLE w v).length = w := by
  induction w generalizing v with
  | zero => rfl
  | succ w ih => rw [putLE, List.length_cons, ih]

/-! ## Reading -/

/-- A reader: what is unread in, a value and what is then unread out. -/
abbrev Get (α : Type) := StateT Bytes (Except String) α

/-- The value of little-endian bytes. -/
def ofLE : Bytes → Nat
  | [] => 0
  | b :: bs => b.toNat + 256 * ofLE bs

/-- `require(n)` and the next `n` bytes. -/
def getRaw (n : Nat) : Get Bytes := fun r =>
  if n ≤ r.length then .ok (r.take n, r.drop n) else .error "buffer underrun"

def getU8 : Get UInt8 := fun r => match r with
  | [] => .error "buffer underrun"
  | b :: rest => .ok (b, rest)

def getU32 : Get Nat := do return ofLE (← getRaw 4)

def getU64 : Get Nat := do return ofLE (← getRaw 8)

def getBool : Get Bool := do return (← getU8) != 0

def getBytes : Get Bytes := do getRaw (← getU32)

/-- A loop that reads `n` values. -/
def getMany (g : Get α) : Nat → Get (List α)
  | 0 => return []
  | n + 1 => do
      let x ← g
      return x :: (← getMany g n)

/-- A reader in two parts succeeds if both do, one after the other. -/
theorem get_bind_eq_ok {g : Get α} {f : α → Get β} {r : Bytes} {x : β × Bytes} :
    (g >>= f) r = .ok x ↔ ∃ a r', g r = .ok (a, r') ∧ f a r' = .ok x := by
  change (g r).bind (fun p => f p.1 p.2) = .ok x ↔ _
  cases hg : g r with
  | error e => simp [Except.bind]
  | ok p =>
      obtain ⟨b, r'⟩ := p
      simp [Except.bind]

theorem get_run'_eq_ok {g : Get α} {r : Bytes} {a : α} :
    g.run' r = .ok a ↔ ∃ r', g r = .ok (a, r') := by
  change (g r).map Prod.fst = .ok a ↔ _
  cases hg : g r with
  | error e => simp [Except.map]
  | ok p =>
      obtain ⟨b, r'⟩ := p
      simp [Except.map]

/-! ## Reading back what was written -/

theorem ofLE_putLE (w v : Nat) : ofLE (putLE w v) = v % 256 ^ w := by
  induction w generalizing v with
  | zero => simp [putLE, ofLE, Nat.mod_one]
  | succ w ih =>
      rw [putLE, ofLE, ih, pow_succ', Nat.mod_mul]
      simp

/-- `g` reads `a` from exactly the bytes `bs`. -/
def Decodes (g : Get α) (bs : Bytes) (a : α) : Prop :=
  ∀ rest, g (bs ++ rest) = .ok (a, rest)

namespace Decodes

theorem pure (a : α) : Decodes (pure a) [] a := fun _ => rfl

theorem bind {g : Get α} {f : α → Get β} {bs bs' : Bytes} {a : α} {b : β}
    (h : Decodes g bs a) (h' : Decodes (f a) bs' b) : Decodes (g >>= f) (bs ++ bs') b := by
  intro rest
  change Except.bind (g (bs ++ bs' ++ rest)) _ = _
  rw [List.append_assoc, h (bs' ++ rest)]
  exact h' rest

theorem map {g : Get α} {bs : Bytes} {a : α} (h : Decodes g bs a) (f : α → β) :
    Decodes (g >>= fun x => Pure.pure (f x)) bs (f a) := by
  intro rest
  change Except.bind (g (bs ++ rest)) _ = _
  rw [h rest]
  rfl

theorem raw (s : Bytes) : Decodes (getRaw s.length) s s := by
  intro rest
  simp [getRaw]

theorem u8 (v : UInt8) : Decodes getU8 (putU8 v) v := fun _ => rfl

theorem bool (v : Bool) : Decodes getBool (putBool v) v := by
  cases v <;> exact (u8 _).map (· != 0)

theorem u32 {v : Nat} (hv : v < 2 ^ 32) : Decodes getU32 (putU32 v) v := by
  have h := (length_putLE 4 v ▸ raw (putLE 4 v)).map ofLE
  rwa [ofLE_putLE, Nat.mod_eq_of_lt (by norm_num; exact hv)] at h

theorem u64 {v : Nat} (hv : v < 2 ^ 64) : Decodes getU64 (putU64 v) v := by
  have h := (length_putLE 8 v ▸ raw (putLE 8 v)).map ofLE
  rwa [ofLE_putLE, Nat.mod_eq_of_lt (by norm_num; exact hv)] at h

theorem bytes {s : Bytes} (hs : s.length < 2 ^ 32) : Decodes getBytes (putBytes s) s :=
  (u32 hs).bind (raw s)

theorem run' {g : Get α} {bs : Bytes} {a : α} (h : Decodes g bs a) (rest : Bytes) :
    (g.run' (bs ++ rest)).toOption = some a := by
  change ((g (bs ++ rest)).map Prod.fst).toOption = some a
  rw [h rest]
  rfl

theorem run'_self {g : Get α} {bs : Bytes} {a : α} (h : Decodes g bs a) :
    (g.run' bs).toOption = some a := by
  simpa only [List.append_nil] using h.run' []

/-- A list of values written one after the other reads back as a whole. -/
theorem many {g : Get α} (put : α → Bytes) (xs : List α) (h : ∀ x ∈ xs, Decodes g (put x) x) :
    Decodes (getMany g xs.length) (xs.flatMap put) xs := by
  induction xs with
  | nil => exact pure []
  | cons x xs ih =>
      rw [List.flatMap_cons]
      refine (h x List.mem_cons_self).bind ?_
      exact (ih fun y hy => h y (List.mem_cons_of_mem x hy)).map (x :: ·)

end Decodes

/-- Every value that fits is read back as it was written, and what follows it
is left unread. -/
def RoundTrips (fits : α → Prop) (put : α → Bytes) (g : Get α) : Prop :=
  ∀ x, fits x → Decodes g (put x) x

/-! ## Writing back what was read -/

theorem putLE_ofLE (bs : Bytes) : putLE bs.length (ofLE bs) = bs := by
  induction bs with
  | nil => rfl
  | cons b bs ih =>
      have hlow : UInt8.ofNat (b.toNat + 256 * ofLE bs) = b := by
        apply UInt8.toNat_inj.mp
        simp
      have hhigh : (b.toNat + 256 * ofLE bs) / 256 = ofLE bs := by
        have := b.toNat_lt
        omega
      rw [List.length_cons, ofLE, putLE, hlow, hhigh, ih]

/-- The bytes `g` reads are those `put` writes for the value. -/
def Consumes (g : Get α) (put : α → Bytes) : Prop :=
  ∀ r a r', g r = .ok (a, r') → r = put a ++ r'

namespace Consumes

theorem of_getRaw {n : Nat} {r bs r' : Bytes} (h : getRaw n r = .ok (bs, r')) :
    bs.length = n ∧ r = bs ++ r' := by
  unfold getRaw at h
  split at h
  · cases h
    exact ⟨List.length_take_of_le ‹_›, (List.take_append_drop n r).symm⟩
  · cases h

/-- A fixed number of little-endian bytes. -/
theorem ofRaw (w : Nat) : Consumes (do return ofLE (← getRaw w)) (putLE w) := by
  intro r a r' h
  obtain ⟨bs, r₁, hraw, h⟩ := get_bind_eq_ok.mp h
  cases h
  obtain ⟨rfl, rfl⟩ := of_getRaw hraw
  rw [putLE_ofLE]

theorem u32 : Consumes getU32 putU32 := ofRaw 4

theorem u64 : Consumes getU64 putU64 := ofRaw 8

theorem u8 : Consumes getU8 putU8 := by
  intro r a r' h
  cases r with
  | nil => cases h
  | cons b rest => cases h; rfl

theorem bytes : Consumes getBytes putBytes := by
  intro r s r' h
  obtain ⟨n, r₁, hlen, h⟩ := get_bind_eq_ok.mp h
  obtain ⟨rfl, rfl⟩ := of_getRaw h
  rw [u32 _ _ _ hlen, putBytes, List.append_assoc]

end Consumes

/-! ## Bounds on what is read -/

theorem ofLE_lt (bs : Bytes) : ofLE bs < 256 ^ bs.length := by
  induction bs with
  | nil => simp [ofLE]
  | cons b bs ih =>
      have hb := b.toNat_lt
      rw [ofLE, List.length_cons, pow_succ']
      omega

theorem getU32_lt {r rest : Bytes} {v : Nat} (h : getU32 r = .ok (v, rest)) : v < 2 ^ 32 := by
  obtain ⟨bs, r', hraw, heq⟩ := get_bind_eq_ok.mp h
  cases heq
  have := ofLE_lt bs
  rwa [(Consumes.of_getRaw hraw).1] at this

theorem getU64_lt {r rest : Bytes} {v : Nat} (h : getU64 r = .ok (v, rest)) : v < 2 ^ 64 := by
  obtain ⟨bs, r', hraw, heq⟩ := get_bind_eq_ok.mp h
  cases heq
  have := ofLE_lt bs
  rwa [(Consumes.of_getRaw hraw).1] at this

theorem getBytes_length {r rest s : Bytes} (h : getBytes r = .ok (s, rest)) :
    s.length < 2 ^ 32 := by
  obtain ⟨n, r', hn, hraw⟩ := get_bind_eq_ok.mp h
  rw [(Consumes.of_getRaw hraw).1]
  exact getU32_lt hn

/-! ## Cut bytes -/

/-- The bytes of a value that round-trips cannot be read if some of them are
missing: what was read instead would be a shorter encoding of the same bytes. -/
theorem Consumes.error_of_take {g : Get α} {put : α → Bytes} {fits : α → Prop}
    (hconsumes : Consumes g put) (hround : RoundTrips fits put g)
    (hread : ∀ r a r', g r = .ok (a, r') → fits a) {x : α} (hx : fits x) {cut : Nat}
    (hcut : cut < (put x).length) : ∃ msg, g ((put x).take cut) = .error msg := by
  cases hg : g ((put x).take cut) with
  | error msg => exact ⟨msg, rfl⟩
  | ok p =>
      obtain ⟨a, r'⟩ := p
      -- what was read from the cut bytes would be read from all of them, and leave something over
      have hsplit : put a ++ (r' ++ (put x).drop cut) = put x := by
        rw [← List.append_assoc, ← hconsumes _ _ _ hg, List.take_append_drop]
      have hshort := hround a (hread _ _ _ hg) (r' ++ (put x).drop cut)
      have hwhole := hround x hx []
      rw [hsplit] at hshort
      rw [List.append_nil, hshort] at hwhole
      have hrest := congrArg Prod.snd (Except.ok.inj hwhole)
      have := List.drop_eq_nil_iff.mp (List.append_eq_nil_iff.mp hrest).2
      omega

end KvRaft
