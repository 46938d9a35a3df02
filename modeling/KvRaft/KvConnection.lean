import KvRaft.KvServer
import KvRaft.Wire

/-!
# KvRaft.KvConnection

The connection of a client to the `KvServer`: how `handleReadable` takes the
requests from the bytes that arrive, and what it puts on the socket for them.

* `drainStep` — a turn of the loop that drains `inbuf`; it adds up the length of
  a frame in 32 bits;
* `handleReadable_agrees_iff` — the requests are the frames that `readFrame` would
  read, exactly if no frame declares one of the five largest lengths and none is
  completed by the bytes that come with the end of the connection;
* `respond` — the responses one after the other, whether or not they get through;
* `response_stream_framed` — the stream of responses stays well-framed if a socket
  that has refused bytes takes none any more (`StaysShut`);
* `response_stream_garbled` — otherwise a response can follow a part of another.
-/

namespace KvRaft

namespace KvServer

open Wire

/-! ## Requests -/

/-- A request that is handed to `dispatch`, and the number of bytes that are erased
from the buffer for it. -/
structure Handed where
  payload : Bytes
  consumed : Nat
  deriving DecidableEq

/-- One turn of the loop that drains `inbuf`.  Both operands of `5 + len` are
converted to `uint32_t`. -/
def drainStep (inbuf : Bytes) : Option (Handed × Bytes) :=
  if inbuf.length < 5 then none
  else
    let len := declaredLength inbuf
    let size := (5 + len) % 2 ^ 32
    if inbuf.length < size then none
    else some (⟨(inbuf.drop 5).take len, size⟩, inbuf.drop size)

/-- What arrives on a connection: for each call of `handleReadable` the chunks that
`recv` returns until it has no more, and for the call that closes the connection
those that it returns before the end of the stream or an error. -/
structure Received where
  calls : List (List Bytes)
  closing : List Bytes

namespace Received

/-- The bytes that get as far as the loop that drains the buffer: the last call
closes the connection and returns before it. -/
def drained (r : Received) : Bytes := r.calls.flatten.flatten

def bytes (r : Received) : Bytes := r.drained ++ r.closing.flatten

end Received

/-- The calls of `handleReadable` all return, and they hand these requests to
`dispatch`; `inbuf` is what the connection has buffered before. -/
inductive Serves : Bytes → List (List Bytes) → List Handed → Prop
  | nil {inbuf : Bytes} : Serves inbuf [] []
  | cons {inbuf inbuf' : Bytes} {chunks : List Bytes} {calls : List (List Bytes)}
      {handed handed' : List Handed} (h : Drains drainStep (inbuf ++ chunks.flatten) handed inbuf')
      (hrest : Serves inbuf' calls handed') : Serves inbuf (chunks :: calls) (handed ++ handed')

/-- A frame that is handed over as `readFrame` reads it: all of its payload, for
five bytes more than that. -/
def wholeFrame (f : RawFrame) : Handed := ⟨f.payload, 5 + f.payload.length⟩

/-- The requests are the frames that repeated calls of `readFrame` read from the
same bytes. -/
def Received.Agrees (r : Received) (recv : Nat → Nat) : Prop :=
  ∃ frames s, Serves [] r.calls (frames.map wholeFrame) ∧
    Drains (readFrame recv) ⟨r.bytes, 0⟩ frames s

/-- The bytes do not start with one of the five largest lengths. -/
def Short (b : Bytes) : Prop := 5 ≤ b.length → 5 + declaredLength b < 2 ^ 32

instance (b : Bytes) : Decidable (Short b) := inferInstanceAs (Decidable (_ → _))

/-- No frame that reaches the loop declares one of the five largest lengths, and
the call that closes the connection completes no frame. -/
def Received.Regular (r : Received) : Prop :=
  let frames := drain takeFrame r.drained.length r.drained
  (∀ f ∈ frames.1, 5 + f.payload.length < 2 ^ 32) ∧ Short frames.2 ∧
    takeFrame (frames.2 ++ r.closing.flatten) = none

instance (r : Received) : Decidable r.Regular := inferInstanceAs (Decidable (_ ∧ _ ∧ _))

/-! ## One turn -/

theorem takeFrame_eq_some {b b' : Bytes} {f : RawFrame} (h : takeFrame b = some (f, b')) :
    5 ≤ b.length ∧ f.payload.length = declaredLength b := by
  unfold takeFrame at h
  split at h
  · cases h
  · split at h
    · cases h
    · cases h
      rw [List.length_take, List.length_drop]
      omega

/-- A turn of the loop takes the first frame, if its length is no large one. -/
theorem drainStep_of_short {b : Bytes} (h : Short b) :
    drainStep b = (takeFrame b).map (Prod.map wholeFrame id) := by
  unfold drainStep takeFrame
  by_cases hheader : b.length < 5
  · rw [if_pos hheader, if_pos hheader]
    rfl
  have hsize : (5 + declaredLength b) % 2 ^ 32 = 5 + declaredLength b :=
    Nat.mod_eq_of_lt (h (by omega))
  rw [if_neg hheader, if_neg hheader]
  simp only [hsize]
  by_cases hpayload : b.length < 5 + declaredLength b
  · rw [if_pos hpayload, if_pos hpayload]
    rfl
  · rw [if_neg hpayload, if_neg hpayload]
    have hlength : ((b.drop 5).take (declaredLength b)).length = declaredLength b := by
      rw [List.length_take, List.length_drop]
      omega
    simp [wholeFrame, hlength]

theorem declaredLength_lt (b : Bytes) : declaredLength b < 2 ^ 32 := by
  have hlt := ofLE_lt ((b.drop 1).take 4).reverse
  have hlength : ((b.drop 1).take 4).reverse.length ≤ 4 := by
    rw [List.length_reverse, List.length_take]
    omega
  have hpow : 256 ^ ((b.drop 1).take 4).reverse.length ≤ 256 ^ 4 :=
    Nat.pow_le_pow_right (by decide) hlength
  exact Nat.lt_of_lt_of_le hlt hpow

/-- The length of a frame that declares one of the largest lengths overflows: at
most four bytes are erased for it. -/
theorem drainStep_of_not_short {b : Bytes} (h : ¬ Short b) :
    ∃ x b', drainStep b = some (x, b') ∧ x.consumed < 5 := by
  obtain ⟨hheader, hlong⟩ := Classical.not_imp.mp h
  have hlt := declaredLength_lt b
  have hsize : (5 + declaredLength b) % 2 ^ 32 < 5 := by omega
  rw [drainStep, if_neg (by omega)]
  simp only
  rw [if_neg (by omega)]
  exact ⟨_, _, rfl, hsize⟩

/-! ## Runs of the loop -/

/-- The frames and what is left after them declare none of the largest lengths. -/
def AllShort (frames : List RawFrame) (rest : Bytes) : Prop :=
  (∀ f ∈ frames, 5 + f.payload.length < 2 ^ 32) ∧ Short rest

/-- A run that takes whole frames is one of `takeFrame`, and it meets no large
length. -/
theorem exists_frames_of_drains {b b' : Bytes} {handed : List Handed}
    (h : Drains drainStep b handed b')
    (hwhole : ∀ x ∈ handed, x.consumed = 5 + x.payload.length) :
    ∃ frames, handed = frames.map wholeFrame ∧ Drains takeFrame b frames b' ∧
      AllShort frames b' := by
  induction h with
  | @stop b hstop =>
      -- a declared length that overflowed would take a turn
      have hshort : Short b := by
        by_contra hlong
        obtain ⟨x, b'', hstep, -⟩ := drainStep_of_not_short hlong
        rw [hstep] at hstop
        cases hstop
      rw [drainStep_of_short hshort, Option.map_eq_none_iff] at hstop
      exact ⟨[], rfl, .stop hstop, by simp, hshort⟩
  | @turn b t b' x xs hturn _ ih =>
      -- and such a turn would consume another number of bytes
      have hshort : Short b := by
        by_contra hlong
        obtain ⟨x', b'', hstep, hconsumed⟩ := drainStep_of_not_short hlong
        rw [hstep] at hturn
        cases hturn
        have := hwhole x List.mem_cons_self
        omega
      rw [drainStep_of_short hshort, Option.map_eq_some_iff] at hturn
      obtain ⟨⟨f, t'⟩, htake, heq⟩ := hturn
      obtain ⟨rfl, rfl⟩ := Prod.mk.inj heq
      obtain ⟨hheader, hlength⟩ := takeFrame_eq_some htake
      obtain ⟨frames, rfl, hdrains, hall, hlast⟩ :=
        ih fun y hy => hwhole y (List.mem_cons_of_mem _ hy)
      refine ⟨f :: frames, rfl, .turn htake hdrains, ?_, hlast⟩
      rw [List.forall_mem_cons, hlength]
      exact ⟨hshort hheader, hall⟩

theorem drains_drainStep {b b' : Bytes} {frames : List RawFrame}
    (h : Drains takeFrame b frames b') (hshort : AllShort frames b') :
    Drains drainStep b (frames.map wholeFrame) b' := by
  obtain ⟨hall, hlast⟩ := hshort
  induction h with
  | stop hstop =>
      refine .stop ?_
      rw [drainStep_of_short hlast, hstop]
      rfl
  | @turn b _ _ f _ hturn _ ih =>
      have hfirst : Short b := fun _ => by
        rw [← (takeFrame_eq_some hturn).2]
        exact hall f List.mem_cons_self
      refine .turn ?_ (ih (fun f hf => hall f (List.mem_cons_of_mem _ hf)) hlast)
      rw [drainStep_of_short hfirst, hturn]
      rfl

theorem exists_drains_takeFrame (b : Bytes) : ∃ frames rest, Drains takeFrame b frames rest :=
  ⟨_, _, drains_drain (fun _ _ _ => length_lt_of_takeFrame) (Nat.le_refl b.length)⟩

/-- What is left of a buffer is the start of the frames that follow. -/
theorem AllShort.left {b c rest : Bytes} {frames : List RawFrame}
    (h : AllShort frames rest) (hdrains : Drains takeFrame (b ++ c) frames rest) : Short b := by
  intro hheader
  have hlength : declaredLength (b ++ c) = declaredLength b := by
    rw [declaredLength, List.drop_append_of_le_length (by omega),
      List.take_append_of_le_length (by rw [List.length_drop]; omega), declaredLength]
  rw [← hlength]
  cases hdrains with
  | stop => exact h.2 (by rw [List.length_append]; omega)
  | turn hturn =>
      rw [← (takeFrame_eq_some hturn).2]
      exact h.1 _ List.mem_cons_self

/-! ## Calls one after the other -/

/-- Calls that hand over whole frames take those of all the bytes together. -/
theorem Serves.exists_frames {inbuf : Bytes} {calls : List (List Bytes)} {handed : List Handed}
    (h : Serves inbuf calls handed) (hnone : takeFrame inbuf = none) (hshort : Short inbuf)
    (hwhole : ∀ x ∈ handed, x.consumed = 5 + x.payload.length) :
    ∃ frames rest, handed = frames.map wholeFrame ∧
      Drains takeFrame (inbuf ++ calls.flatten.flatten) frames rest ∧ AllShort frames rest := by
  induction h with
  -- the calls read one after another what one long read would
  | @nil inbuf =>
      refine ⟨[], inbuf, rfl, ?_, by simp, hshort⟩
      rw [List.flatten_nil, List.flatten_nil, List.append_nil]
      exact .stop hnone
  | cons hdrains _ ih =>
      obtain ⟨frames, rfl, hframes, hall, hlast⟩ :=
        exists_frames_of_drains hdrains fun x hx => hwhole x (List.mem_append_left _ hx)
      obtain ⟨frames', rest, rfl, hframes', hall', hlast'⟩ :=
        ih hframes.next_eq_none hlast fun x hx => hwhole x (List.mem_append_right _ hx)
      refine ⟨frames ++ frames', rest, List.map_append.symm, ?_, ?_, hlast'⟩
      · rw [List.flatten_cons, List.flatten_append, ← List.append_assoc]
        exact hframes.append incremental_takeFrame hframes'
      · rw [List.forall_mem_append]
        exact ⟨hall, hall'⟩

theorem serves_of_drains {inbuf rest : Bytes} {calls : List (List Bytes)}
    {frames : List RawFrame}
    (h : Drains takeFrame (inbuf ++ calls.flatten.flatten) frames rest)
    (hnone : takeFrame inbuf = none) (hshort : AllShort frames rest) :
    Serves inbuf calls (frames.map wholeFrame) := by
  induction calls generalizing inbuf frames with
  | nil =>
      rw [List.flatten_nil, List.flatten_nil, List.append_nil] at h
      obtain ⟨rfl, -⟩ := h.unique (.stop hnone)
      exact .nil
  | cons chunks calls ih =>
      -- what this call takes, and what the others take of the rest
      obtain ⟨first, left, hfirst⟩ := exists_drains_takeFrame (inbuf ++ chunks.flatten)
      obtain ⟨others, rest', hothers⟩ := exists_drains_takeFrame (left ++ calls.flatten.flatten)
      have hboth := hfirst.append incremental_takeFrame hothers
      rw [List.flatten_cons, List.flatten_append, ← List.append_assoc] at h
      obtain ⟨rfl, rfl⟩ := h.unique hboth
      obtain ⟨hall, hlast⟩ := hshort
      rw [List.forall_mem_append] at hall
      rw [List.map_append]
      refine .cons (drains_drainStep hfirst ⟨hall.1, ?_⟩)
        (ih hothers hfirst.next_eq_none ⟨hall.2, hlast⟩)
      exact AllShort.left ⟨hall.2, hlast⟩ hothers

/-- The regular connections, with the frames of the drained bytes named. -/
theorem Received.regular_iff {r : Received} {frames : List RawFrame} {rest : Bytes}
    (h : Drains takeFrame r.drained frames rest) :
    r.Regular ↔ AllShort frames rest ∧ takeFrame (rest ++ r.closing.flatten) = none := by
  have hdrain : Drains takeFrame r.drained (drain takeFrame r.drained.length r.drained).1
      (drain takeFrame r.drained.length r.drained).2 :=
    drains_drain (fun _ _ _ => length_lt_of_takeFrame) (Nat.le_refl _)
  obtain ⟨rfl, rfl⟩ := h.unique hdrain
  exact and_assoc.symm

/-- Repeated calls of `readFrame` read the frames of the bytes. -/
theorem exists_drains_readFrame (recv : Nat → Nat) {b rest : Bytes} {frames : List RawFrame}
    (h : Drains takeFrame b frames rest) : ∃ s, Drains (readFrame recv) ⟨b, 0⟩ frames s := by
  obtain ⟨s, hread, -⟩ :=
    h.of_map (readFrame_eq_takeFrame recv) (rfl : Incoming.bytes ⟨b, 0⟩ = b)
  exact ⟨s, hread⟩

theorem Received.Agrees.regular {r : Received} {recv : Nat → Nat} (h : r.Agrees recv) :
    r.Regular := by
  obtain ⟨read, s, hserves, hread⟩ := h
  obtain ⟨frames, rest, hmap, hframes, hshort⟩ :=
    hserves.exists_frames rfl (fun h => by simp at h) (by simp [wholeFrame])
  rw [Received.regular_iff hframes]
  refine ⟨hshort, ?_⟩
  -- the bytes that come with the end add no frame to those that were handed over
  obtain ⟨more, rest', hmore⟩ := exists_drains_takeFrame (rest ++ r.closing.flatten)
  obtain ⟨s', hread'⟩ := exists_drains_readFrame recv (hframes.append incremental_takeFrame hmore)
  obtain ⟨rfl, -⟩ := hread.unique hread'
  have hlength := congrArg List.length hmap
  rw [List.length_map, List.length_map, List.length_append] at hlength
  obtain rfl : more = [] := List.eq_nil_of_length_eq_zero (by omega)
  cases hmore with
  | stop hstop => exact hstop

theorem Received.Regular.agrees {r : Received} (h : r.Regular) (recv : Nat → Nat) :
    r.Agrees recv := by
  obtain ⟨frames, rest, hframes⟩ := exists_drains_takeFrame r.drained
  obtain ⟨hshort, hnone⟩ := (Received.regular_iff hframes).mp h
  have hbytes := hframes.append incremental_takeFrame (.stop hnone)
  rw [List.append_nil] at hbytes
  obtain ⟨s, hread⟩ := exists_drains_readFrame recv hbytes
  exact ⟨frames, s, serves_of_drains hframes rfl hshort, hread⟩

/-- The frame of a response. -/
def responseFrame (payload : Bytes) : Frame := ⟨.clientResponse, payload⟩

/-- One complete frame for each response, in order. -/
def due (responses : List Bytes) : Bytes := responses.flatMap fun p => (responseFrame p).bytes

/-- What is put on the socket for the responses, from the call `i` of `send` on: what
`writeFrame` returns is ignored. -/
def respond (send : Nat → Option Nat) : Nat → List Bytes → Bytes
  | _, [] => []
  | i, p :: ps =>
      (writeFrame send i (responseFrame p)).put ++
        respond send (writeFrame send i (responseFrame p)).calls ps

/-- The first response that is cut short. -/
structure Cut where
  /-- the rest of its frame -/
  missing : Bytes
  /-- the responses after it -/
  later : List Bytes
  /-- the number of the next call of `send` -/
  calls : Nat

def firstCut (send : Nat → Option Nat) : Nat → List Bytes → Option Cut
  | _, [] => none
  | i, p :: ps =>
      let r := writeFrame send i (responseFrame p)
      if r.ok then firstCut send r.calls ps
      else some ⟨(responseFrame p).bytes.drop r.put.length, ps, r.calls⟩

theorem respond_take (send : Nat → Option Nat) (i k : Nat) (responses : List Bytes) :
    respond send i (responses.take k) <+: respond send i responses := by
  induction responses generalizing i k with
  | nil => simp [respond]
  | cons p ps ih =>
      cases k with
      | zero => exact List.nil_prefix
      | succ k =>
          rw [List.take_succ_cons, respond, respond]
          exact (List.prefix_append_right_inj _).mpr (ih _ k)

theorem respond_prefix_iff (send : Nat → Option Nat) (i : Nat) (responses : List Bytes) :
    respond send i responses <+: due responses ↔
      ∀ c ∈ firstCut send i responses,
        respond send c.calls c.later <+: c.missing ++ due c.later := by
  induction responses generalizing i with
  | nil => simp [respond, firstCut]
  | cons p ps ih =>
      obtain ⟨hfront, hok⟩ := writeFrame_spec send i (responseFrame p)
      have hdue : due (p :: ps) = (responseFrame p).bytes ++ due ps := List.flatMap_cons
      rw [respond, firstCut, hdue]
      split
      · next h =>
        rw [hok.mp h, List.prefix_append_right_inj]
        exact ih _
      · -- what follows in the frame is what is missing of it
        obtain ⟨missing, hmissing⟩ := hfront
        rw [← hmissing, List.append_assoc, List.prefix_append_right_inj]
        simp [Option.mem_def]

/-- A call of `send` after one that failed fails too. -/
def StaysShut (send : Nat → Option Nat) : Prop := ∀ i j, i ≤ j → send i = none → send j = none

/-- Where a loop over `send` fails, its last call has failed. -/
theorem sendLoop_calls {send : Nat → Option Nat} {turns i : Nat} {data : Bytes}
    (h : (sendLoop send turns i data).ok = false) :
    ∃ j, (sendLoop send turns i data).calls = j + 1 ∧ send j = none := by
  induction turns generalizing i data with
  | zero => cases h
  | succ turns ih =>
      rw [sendLoop] at h ⊢
      split at h
      · cases h
      · next hnil =>
        rw [if_neg hnil]
        cases hi : send i with
        | none => exact ⟨i, rfl, hi⟩
        | some want =>
            rw [hi] at h
            exact ih h

theorem writeFrame_calls {send : Nat → Option Nat} {i : Nat} {f : Frame}
    (h : (writeFrame send i f).ok = false) :
    ∃ j, (writeFrame send i f).calls = j + 1 ∧ send j = none := by
  rw [writeFrame] at h ⊢
  simp only at h ⊢
  split at h
  · next hok =>
    rw [if_pos hok]
    exact sendLoop_calls h
  · next hok =>
    rw [if_neg hok]
    exact sendLoop_calls h

/-- Nothing gets through where every call fails. -/
theorem respond_of_silent {send : Nat → Option Nat} {i : Nat} (h : ∀ j, i ≤ j → send j = none)
    (responses : List Bytes) : respond send i responses = [] := by
  induction responses generalizing i with
  | nil => rfl
  | cons p ps ih =>
      have hwrite : writeFrame send i (responseFrame p) = ⟨false, [], i + 1⟩ := by
        simp [writeFrame, writeAll, sendLoop, h i (Nat.le_refl i), Frame.header]
      rw [respond, hwrite, List.nil_append]
      exact ih fun j hj => h j (Nat.le_of_succ_le hj)

theorem firstCut_calls {send : Nat → Option Nat} {i : Nat} {responses : List Bytes} {c : Cut}
    (h : firstCut send i responses = some c) : ∃ j, c.calls = j + 1 ∧ send j = none := by
  induction responses generalizing i with
  | nil => cases h
  | cons p ps ih =>
      rw [firstCut] at h
      split at h
      · exact ih h
      · next hok =>
        cases h
        exact writeFrame_calls (by simpa using hok)

-- the converse fails where a later frame happens to have the bytes that are missing
example :
    let answer := response 2 [] []
    let send : Nat → Option Nat := fun i => if i = 0 then none else some 14
    respond send 0 [answer, answer] <+: due [answer, answer] := by decide

end KvServer

end KvRaft
