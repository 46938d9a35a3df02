import KvRaft.Buffer
import KvRaft.Drain

/-!
# KvRaft.Wire

The framing of `net/wire.h`: a frame is its type, the big-endian length of its
payload and the payload.  A socket moves the bytes in pieces: the `i`-th call of
`send` takes as many of the bytes it is given as it likes, and may fail, the
`i`-th call of `recv` gives as many of those it is asked for as it likes, and
nothing at the end of the stream.

* `writeFrame_spec` — what `writeFrame` puts on the socket is a front of the
  frame's bytes, and all of them if it returns true;
* `readFrame_eq_takeFrame` — `readFrame` takes the first frame of the bytes that
  arrive, in whatever pieces;
* `drains_writeFrames` — frames that are written are read back.
-/

namespace KvRaft

/-! ## Frames -/

inductive WireType
  | requestVoteReq | requestVoteResp
  | appendEntriesReq | appendEntriesResp
  | installSnapshotReq | installSnapshotResp
  | clientRequest | clientResponse
  deriving DecidableEq

def WireType.toU8 : WireType → UInt8
  | requestVoteReq => 1
  | requestVoteResp => 2
  | appendEntriesReq => 3
  | appendEntriesResp => 4
  | installSnapshotReq => 5
  | installSnapshotResp => 6
  | clientRequest => 10
  | clientResponse => 11

theorem WireType.toU8_injective : Function.Injective WireType.toU8 := by
  intro t t' h
  cases t <;> cases t' <;> first | rfl | contradiction

structure Frame where
  type : WireType
  payload : Bytes
  deriving DecidableEq

/-- A frame as it is read: its type is whatever byte arrived. -/
structure RawFrame where
  type : UInt8
  payload : Bytes
  deriving DecidableEq

def Frame.raw (f : Frame) : RawFrame := ⟨f.type.toU8, f.payload⟩

/-- The four big-endian bytes of a length. -/
def putLength (len : Nat) : Bytes := (putLE 4 len).reverse

def ofLength (bs : Bytes) : Nat := ofLE bs.reverse

/-- `hdr`, the five bytes before the payload. -/
def Frame.header (f : Frame) : Bytes := f.type.toU8 :: putLength f.payload.length

def Frame.bytes (f : Frame) : Bytes := f.header ++ f.payload

theorem Frame.raw_injective : Function.Injective Frame.raw := by
  rintro ⟨type, payload⟩ ⟨type', payload'⟩ h
  obtain ⟨htype, hpayload⟩ := RawFrame.mk.inj h
  exact Frame.mk.injEq .. ▸ ⟨WireType.toU8_injective htype, hpayload⟩

theorem Frame.length_header (f : Frame) : f.header.length = 5 := by
  simp [header, putLength, length_putLE]

theorem ofLength_putLength {len : Nat} (h : len < 2 ^ 32) : ofLength (putLength len) = len := by
  rw [ofLength, putLength, List.reverse_reverse, ofLE_putLE]
  exact Nat.mod_eq_of_lt (by norm_num; exact h)

namespace Wire

/-! ## Writing -/

/-- The number of bytes that a call moves if it could move `n`, and `want` of them
is what it likes: any number from 1 to `n`. -/
def moved (want n : Nat) : Nat := max 1 (min want n)

theorem moved_pos (want n : Nat) : 0 < moved want n := by
  unfold moved
  omega

theorem moved_le {want n : Nat} (hn : 0 < n) : moved want n ≤ n := by
  unfold moved
  omega

/-- What a loop over `send` has done. -/
structure Sent where
  ok : Bool
  /-- the bytes that are on the socket -/
  put : Bytes
  /-- the number of the next call -/
  calls : Nat
  deriving DecidableEq

/-- The loop of `writeAll`, from the call `i` on; a call that succeeds moves a byte,
so the length of the data bounds the number of turns. -/
def sendLoop (send : Nat → Option Nat) : Nat → Nat → Bytes → Sent
  | 0, i, _ => ⟨true, [], i⟩
  | turns + 1, i, data =>
      if data = [] then ⟨true, [], i⟩
      else match send i with
        | none => ⟨false, [], i + 1⟩
        | some want =>
            let n := moved want data.length
            let r := sendLoop send turns (i + 1) (data.drop n)
            { r with put := data.take n ++ r.put }

def writeAll (send : Nat → Option Nat) (i : Nat) (data : Bytes) : Sent :=
  sendLoop send data.length i data

def writeFrame (send : Nat → Option Nat) (i : Nat) (f : Frame) : Sent :=
  let h := writeAll send i f.header
  if h.ok then
    let p := writeAll send h.calls f.payload
    { p with put := h.put ++ p.put }
  else h

/-- Frames written one after the other, up to the first that fails. -/
def writeFrames (send : Nat → Option Nat) : Nat → List Frame → Sent
  | i, [] => ⟨true, [], i⟩
  | i, f :: fs =>
      let r := writeFrame send i f
      if r.ok then
        let rs := writeFrames send r.calls fs
        { rs with put := r.put ++ rs.put }
      else r

/-- What was put is a front of the data, and the whole of it exactly if the loop
succeeded. -/
structure Sent.Of (r : Sent) (data : Bytes) : Prop where
  front : r.put <+: data
  ok_iff : r.ok = true ↔ r.put = data

theorem Sent.Of.lt_of_not_ok {r : Sent} {data : Bytes} (h : r.Of data) (hok : r.ok = false) :
    r.put.length < data.length := by
  refine Nat.lt_of_le_of_ne h.front.length_le fun hlen => ?_
  have := h.ok_iff.mpr (h.front.eq_of_length hlen)
  rw [hok] at this
  cases this

/-- Two writes, the second one only after the first has succeeded. -/
theorem Sent.Of.append {r r' : Sent} {data data' : Bytes} (h : r.Of data) (hok : r.ok = true)
    (h' : r'.Of data') : Sent.Of { r' with put := r.put ++ r'.put } (data ++ data') := by
  rw [h.ok_iff.mp hok]
  constructor
  · exact (List.prefix_append_right_inj data).mpr h'.front
  · simpa using h'.ok_iff

/-- A first write that fails. -/
theorem Sent.Of.append_left {r : Sent} {data : Bytes} (h : r.Of data) (hok : r.ok = false)
    (data' : Bytes) : r.Of (data ++ data') := by
  have hlt := h.lt_of_not_ok hok
  constructor
  · exact h.front.trans (List.prefix_append data data')
  · rw [hok]
    refine ⟨(fun hfalse => by cases hfalse), fun heq => ?_⟩
    have := congrArg List.length heq
    rw [List.length_append] at this
    omega

theorem sendLoop_spec (send : Nat → Option Nat) {turns : Nat} (i : Nat) {data : Bytes}
    (hturns : data.length ≤ turns) : (sendLoop send turns i data).Of data := by
  induction turns generalizing i data with
  | zero =>
      rw [List.eq_nil_of_length_eq_zero (by omega : data.length = 0)]
      exact ⟨List.nil_prefix, by simp [sendLoop]⟩
  | succ turns ih =>
      rw [sendLoop]
      by_cases hnil : data = []
      · rw [if_pos hnil, hnil]
        exact ⟨List.nil_prefix, by simp⟩
      rw [if_neg hnil]
      cases send i with
      | none => exact ⟨List.nil_prefix, by simpa using Ne.symm hnil⟩
      | some want =>
          simp only
          -- a call moves at least one byte, so the turns suffice for the rest
          set n := moved want data.length with hn
          have hpos : 0 < n := moved_pos _ _
          have hrest : (sendLoop send turns (i + 1) (data.drop n)).Of (data.drop n) :=
            ih (i + 1) (by rw [List.length_drop]; omega)
          have hfirst : Sent.Of ⟨true, data.take n, i + 1⟩ (data.take n) :=
            ⟨List.prefix_rfl, by simp⟩
          have hboth := hfirst.append rfl hrest
          rwa [List.take_append_drop] at hboth

theorem writeAll_spec (send : Nat → Option Nat) (i : Nat) (data : Bytes) :
    (writeAll send i data).Of data := sendLoop_spec send i (Nat.le_refl _)

/-- **What `writeFrame` puts on a socket** is a front of the frame, and the whole
frame exactly if it returns true. -/
theorem writeFrame_spec (send : Nat → Option Nat) (i : Nat) (f : Frame) :
    (writeFrame send i f).Of f.bytes := by
  have hheader := writeAll_spec send i f.header
  rw [writeFrame]
  simp only
  split
  · next hok => exact hheader.append hok (writeAll_spec send _ f.payload)
  · next hok => exact hheader.append_left (by simpa using hok) f.payload

/-! ## Blocking sockets -/

section

variable {send : Nat → Option Nat} (hsend : ∀ i, send i ≠ none)

include hsend

theorem sendLoop_ok (turns i : Nat) (data : Bytes) : (sendLoop send turns i data).ok = true := by
  induction turns generalizing i data with
  | zero => rfl
  | succ turns ih =>
      rw [sendLoop]
      split
      · rfl
      · cases hi : send i with
        | none => exact absurd hi (hsend i)
        | some want => exact ih (i + 1) _

theorem writeFrame_ok (i : Nat) (f : Frame) : (writeFrame send i f).ok = true := by
  have hheader : (writeAll send i f.header).ok = true := sendLoop_ok hsend ..
  rw [writeFrame]
  simp only
  rw [if_pos hheader]
  exact sendLoop_ok hsend ..

/-- Where no call fails, the bytes of all frames get through. -/
theorem writeFrames_put (i : Nat) (fs : List Frame) :
    (writeFrames send i fs).ok = true ∧ (writeFrames send i fs).put = fs.flatMap Frame.bytes := by
  induction fs generalizing i with
  | nil => exact ⟨rfl, rfl⟩
  | cons f fs ih =>
      have hok := writeFrame_ok hsend i f
      obtain ⟨hrest, hput⟩ := ih (writeFrame send i f).calls
      rw [writeFrames]
      simp only
      rw [if_pos hok, hput, (writeFrame_spec send i f).ok_iff.mp hok]
      exact ⟨hrest, rfl⟩

end

/-! ## Reading -/

/-- The bytes that have yet to arrive on a socket, and the number of the next call
of `recv`. -/
structure Incoming where
  bytes : Bytes
  calls : Nat
  deriving DecidableEq

/-- The loop of `readExact`; `recv` returns 0 at the end of the stream. -/
def recvLoop (recv : Nat → Nat) : Nat → Incoming → Nat → Option (Bytes × Incoming)
  | 0, s, len => if len = 0 then some ([], s) else none
  | turns + 1, s, len =>
      if len = 0 then some ([], s)
      else if s.bytes = [] then none
      else
        let n := moved (recv s.calls) (min len s.bytes.length)
        (recvLoop recv turns ⟨s.bytes.drop n, s.calls + 1⟩ (len - n)).map fun r =>
          (s.bytes.take n ++ r.1, r.2)

def readExact (recv : Nat → Nat) (s : Incoming) (len : Nat) : Option (Bytes × Incoming) :=
  recvLoop recv len s len

def readFrame (recv : Nat → Nat) (s : Incoming) : Option (RawFrame × Incoming) := do
  let (hdr, s) ← readExact recv s 5
  let type := hdr.headD 0
  let len := ofLength (hdr.drop 1)
  if len = 0 then return (⟨type, []⟩, s)
  let (payload, s) ← readExact recv s len
  return (⟨type, payload⟩, s)

/-- The length that the first five bytes declare. -/
def declaredLength (b : Bytes) : Nat := ofLength ((b.drop 1).take 4)

/-- The first frame of some bytes, if all of it is there, and what follows it. -/
def takeFrame (b : Bytes) : Option (RawFrame × Bytes) :=
  if b.length < 5 then none
  else if b.length < 5 + declaredLength b then none
  else some (⟨b.headD 0, (b.drop 5).take (declaredLength b)⟩, b.drop (5 + declaredLength b))

/-- `readExact` gets the next bytes, in whatever pieces they arrive. -/
theorem recvLoop_eq (recv : Nat → Nat) {turns : Nat} {s : Incoming} {len : Nat}
    (hturns : len ≤ turns) : (recvLoop recv turns s len).map (Prod.map id Incoming.bytes) =
      if len ≤ s.bytes.length then some (s.bytes.take len, s.bytes.drop len) else none := by
  induction turns generalizing s len with
  | zero =>
      obtain rfl : len = 0 := by omega
      simp [recvLoop]
  | succ turns ih =>
      rw [recvLoop]
      by_cases hlen : len = 0
      · simp [hlen]
      rw [if_neg hlen]
      by_cases hnil : s.bytes = []
      · simp [hnil, hlen]
      have hbytes := List.length_pos_of_ne_nil hnil
      rw [if_neg hnil]
      -- here too every call moves at least one byte
      set n := moved (recv s.calls) (min len s.bytes.length) with hn
      have hpos : 0 < n := moved_pos _ _
      have hle : n ≤ min len s.bytes.length := moved_le (by omega)
      have hrest := @ih ⟨s.bytes.drop n, s.calls + 1⟩ (len - n) (by omega)
      simp only [List.length_drop] at hrest
      -- all that is asked for is there, or the stream ends before
      by_cases henough : len ≤ s.bytes.length
      · rw [if_pos (by omega), Option.map_eq_some_iff] at hrest
        obtain ⟨r, hr, heq⟩ := hrest
        obtain ⟨hgot, hleft⟩ := Prod.mk.inj heq
        have htake : s.bytes.take n ++ r.1 = s.bytes.take len := by
          have hfront : s.bytes.take n = (s.bytes.take len).take n := by
            rw [List.take_take, Nat.min_eq_left (by omega)]
          rw [show r.1 = (s.bytes.drop n).take (len - n) from hgot, ← List.drop_take, hfront,
            List.take_append_drop]
        have hdrop : r.2.bytes = s.bytes.drop len := by
          rw [hleft, List.drop_drop]
          congr 1
          omega
        simp [hr, henough, htake, hdrop]
      · rw [if_neg (by omega), Option.map_eq_none_iff] at hrest
        simp [hrest, henough]

theorem readExact_eq (recv : Nat → Nat) (s : Incoming) (len : Nat) :
    (readExact recv s len).map (Prod.map id Incoming.bytes) =
      if len ≤ s.bytes.length then some (s.bytes.take len, s.bytes.drop len) else none :=
  recvLoop_eq recv (Nat.le_refl len)

theorem of_readExact (recv : Nat → Nat) (s : Incoming) {len : Nat} (h : len ≤ s.bytes.length) :
    ∃ calls, readExact recv s len = some (s.bytes.take len, ⟨s.bytes.drop len, calls⟩) := by
  have heq := readExact_eq recv s len
  rw [if_pos h, Option.map_eq_some_iff] at heq
  obtain ⟨⟨got, left, calls⟩, hread, heq⟩ := heq
  obtain ⟨rfl, rfl⟩ := Prod.mk.inj heq
  exact ⟨calls, hread⟩

theorem readExact_eq_none {recv : Nat → Nat} {s : Incoming} {len : Nat}
    (h : ¬ len ≤ s.bytes.length) : readExact recv s len = none := by
  have heq := readExact_eq recv s len
  rwa [if_neg h, Option.map_eq_none_iff] at heq

/-- **`readFrame` takes the first frame**, whatever the pieces are in which the
bytes arrive. -/
theorem readFrame_eq_takeFrame (recv : Nat → Nat) (s : Incoming) :
    (readFrame recv s).map (Prod.map id Incoming.bytes) = takeFrame s.bytes := by
  unfold readFrame takeFrame
  -- too short for a header
  by_cases hheader : s.bytes.length < 5
  · rw [if_pos hheader, readExact_eq_none (by omega)]
    rfl
  obtain ⟨calls, hread⟩ := of_readExact recv s (by omega : 5 ≤ s.bytes.length)
  have hlength : ofLength ((s.bytes.take 5).drop 1) = declaredLength s.bytes := by
    rw [declaredLength, List.drop_take]
  have htype : (s.bytes.take 5).headD 0 = s.bytes.headD 0 := by
    cases s.bytes <;> rfl
  simp only [hread, hlength, htype, Option.bind_eq_bind, Option.bind_some]
  rw [if_neg hheader]
  -- an empty payload is not read at all
  by_cases hzero : declaredLength s.bytes = 0
  · rw [if_pos hzero, if_neg (by omega), hzero]
    rfl
  rw [if_neg hzero]
  -- the header says how much follows
  by_cases hpayload : s.bytes.length < 5 + declaredLength s.bytes
  · rw [if_pos hpayload, readExact_eq_none (by rw [List.length_drop]; omega)]
    rfl
  · have henough : declaredLength s.bytes ≤ (s.bytes.drop 5).length := by
      rw [List.length_drop]
      omega
    obtain ⟨calls', hread'⟩ := of_readExact recv ⟨s.bytes.drop 5, calls⟩ henough
    rw [if_neg hpayload, hread']
    simp [List.drop_drop]

/-! ## Sequences of frames -/

theorem length_lt_of_takeFrame {b b' : Bytes} {f : RawFrame} (h : takeFrame b = some (f, b')) :
    b'.length < b.length := by
  unfold takeFrame at h
  split at h
  · cases h
  · split at h
    · cases h
    · cases h
      rw [List.length_drop]
      omega

/-- What is taken as a frame does not depend on what follows it. -/
theorem incremental_takeFrame : Incremental takeFrame := by
  intro b f b' h c
  unfold takeFrame at h
  split at h
  · cases h
  next hheader =>
  split at h
  · cases h
  next hpayload =>
  cases h
  have hlength : declaredLength (b ++ c) = declaredLength b := by
    rw [declaredLength, List.drop_append_of_le_length (by omega),
      List.take_append_of_le_length (by rw [List.length_drop]; omega), declaredLength]
  have htype : (b ++ c).headD 0 = b.headD 0 := by
    cases b with
    | nil => simp at hheader
    | cons => rfl
  rw [takeFrame, hlength, List.length_append, if_neg (by omega), if_neg (by omega), htype,
    List.drop_append_of_le_length (by omega), List.drop_append_of_le_length (by omega),
    List.take_append_of_le_length (by rw [List.length_drop]; omega)]

theorem takeFrame_bytes {f : Frame} (h : f.payload.length < 2 ^ 32) (rest : Bytes) :
    takeFrame (f.bytes ++ rest) = some (f.raw, rest) := by
  have hlength : declaredLength (f.bytes ++ rest) = f.payload.length := by
    have hput : (putLength f.payload.length).length = 4 := by simp [putLength, length_putLE]
    rw [declaredLength, Frame.bytes, Frame.header, List.cons_append, List.cons_append,
      List.drop_succ_cons, List.drop_zero, List.append_assoc,
      List.take_append_of_le_length (by omega), List.take_of_length_le (by omega),
      ofLength_putLength h]
  have hbytes : f.bytes.length = 5 + f.payload.length := by
    rw [Frame.bytes, List.length_append, f.length_header]
  have hafter : (f.bytes ++ rest).drop 5 = f.payload ++ rest := by
    rw [Frame.bytes, List.append_assoc, ← f.length_header, List.drop_left]
  have hrest : (f.bytes ++ rest).drop (5 + f.payload.length) = rest := by
    rw [← hbytes, List.drop_left]
  rw [takeFrame, hlength, List.length_append, if_neg (by omega), if_neg (by omega), hafter, hrest,
    List.take_left]
  rfl

theorem drains_takeFrame {fs : List Frame} (h : ∀ f ∈ fs, f.payload.length < 2 ^ 32) :
    Drains takeFrame (fs.flatMap Frame.bytes) (fs.map Frame.raw) [] := by
  induction fs with
  | nil => exact .stop rfl
  | cons f fs ih =>
      rw [List.flatMap_cons, List.map_cons]
      exact .turn (takeFrame_bytes (h f List.mem_cons_self) _)
        (ih fun f' hf' => h f' (List.mem_cons_of_mem f hf'))

/-- **Frames are read back as they were written**, in whatever pieces the two
sockets move them. -/
theorem drains_writeFrames {send : Nat → Option Nat} (hsend : ∀ i, send i ≠ none)
    (recv : Nat → Nat) {fs : List Frame} (h : ∀ f ∈ fs, f.payload.length < 2 ^ 32) :
    ∃ s, Drains (readFrame recv) ⟨(writeFrames send 0 fs).put, 0⟩ (fs.map Frame.raw) s ∧
      s.bytes = [] := by
  rw [(writeFrames_put hsend 0 fs).2]
  exact (drains_takeFrame h).of_map (readFrame_eq_takeFrame recv) rfl

end Wire

end KvRaft
